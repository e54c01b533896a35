import Saltworks.Network.BitStream
import Saltworks.RTL.BatcherNet

/-!
# The sorting network sorts every prefix

In a frame of `batcher_net`, with `rst` high in its first cycle and constant activity wires, what
a line has shown up to a cycle is an item: its activity and the prefix of its stream. An element
exchanges its two items by `streamKey` in every cycle, and so the network sorts the items in every
cycle.

## Main definitions

* `BatcherNet.item`, `BatcherNet.machine`, `BatcherNet.IsFrame`.

## Main results

* `CeElem.InFrame.carries_outs`: what an element does to the two items.
* `BatcherNet.carries_outsAt`: the items behind the network.
* `BatcherNet.frame_sorted`.
-/

namespace Saltworks.RTL

open BitStream

/-- What a line has shown up to cycle `t` of a frame. -/
def item (i : ℕ → Lane) (t : ℕ) : Bool × List Bool :=
  ((i 0).act, prefixOf (fun u => (i u).dat) t)

/-- A line with a constant activity wire has shown an item up to cycle `t`. -/
def Carries (t : ℕ) (x : Bool × List Bool) (i : ℕ → Lane) : Prop :=
  (∀ u ≤ t, (i u).act = (i 0).act) ∧ item i t = x

/-! ### One element -/

namespace CeElem

variable {s : ℕ → State} {i0 i1 : ℕ → Lane} {T : ℕ}

/-- An element in the cycles `0, …, T` of a frame, with constant activity wires. -/
structure InFrame (s : ℕ → State) (i0 i1 : ℕ → Lane) (T : ℕ) : Prop where
  step : ∀ u < T, s (u + 1) = posedge (u == 0) (i0 u) (i1 u) (s u)
  act0 : ∀ u ≤ T, (i0 u).act = (i0 0).act
  act1 : ∀ u ≤ T, (i1 u).act = (i1 0).act

namespace InFrame

variable (h : InFrame s i0 i1 T)
include h

/-- The element exchanges iff the second item is smaller, and is undecided iff the items have
equal keys. -/
theorem sw_iff {t : ℕ} (ht : t ≤ T) :
    (sw (s t) (t == 0) (i0 t) (i1 t) = true ↔ streamKey (item i1 t) < streamKey (item i0 t)) ∧
      (decN (s t) (t == 0) (i0 t) (i1 t) = false ↔
        streamKey (item i1 t) = streamKey (item i0 t)) := by
  induction t with
  | zero =>
    simp only [item, prefixOf_zero, sw, decN, d, newSw, idleSw, bothAct, addrSw, actDiff, addrDiff]
    generalize (i0 0).act = a0, (i1 0).act = a1, (i0 0).dat = b0, (i1 0).dat = b1
    cases a0 <;> cases a1 <;> cases b0 <;> cases b1 <;>
      simp [streamKey, msbValue]
  | succ t ih =>
    obtain ⟨ihsw, ihdec⟩ := ih (by omega)
    have hreg : s (t + 1) =
        ⟨decN (s t) (t == 0) (i0 t) (i1 t), sw (s t) (t == 0) (i0 t) (i1 t)⟩ := h.step t (by omega)
    have hact : streamKey (item i1 t) = streamKey (item i0 t) → (i0 0).act = (i1 0).act := by
      intro heq
      have htop := congrArg (· = ⊤) heq
      simp only [streamKey_eq_top, item, eq_iff_iff] at htop
      cases h0 : (i0 0).act <;> cases h1 : (i1 0).act <;> simp [h0, h1] at htop ⊢
    rw [item, item, prefixOf_succ, prefixOf_succ, streamKey_lt_concat, streamKey_eq_concat]
    change (_ ↔ streamKey (item i1 t) < streamKey (item i0 t) ∨
      streamKey (item i1 t) = streamKey (item i0 t) ∧ _) ∧
      (_ ↔ streamKey (item i1 t) = streamKey (item i0 t) ∧ _)
    -- the registers hold the comparison of the items so far
    rw [hreg]
    generalize decN (s t) (t == 0) (i0 t) (i1 t) = dec, sw (s t) (t == 0) (i0 t) (i1 t) = w at *
    simp only [sw, decN, d, newSw, idleSw, bothAct, addrSw, actDiff, addrDiff, h.act0 (t + 1) ht,
      h.act1 (t + 1) ht]
    cases dec with
    | true =>
      have hne : streamKey (item i1 t) ≠ streamKey (item i0 t) := fun heq =>
        Bool.false_ne_true (ihdec.2 heq).symm
      simp [hne, ← ihsw]
    | false =>
      have heq := ihdec.1 rfl
      simp [heq, hact heq, and_assoc]

/-- Whatever the streams do, the active one of two lines leaves first. -/
theorem act_outs {t : ℕ} (ht : t ≤ T) :
    (outs (s t) (t == 0) (i0 t) (i1 t)).1.act = ((i0 0).act || (i1 0).act) ∧
      (outs (s t) (t == 0) (i0 t) (i1 t)).2.act = ((i0 0).act && (i1 0).act) := by
  have hsw := (h.sw_iff ht).1
  rw [outs_eq]
  split_ifs with hs
  · have hlt := hsw.1 hs
    rw [h.act0 t ht, h.act1 t ht]
    cases h0 : (i0 0).act <;> cases h1 : (i1 0).act <;>
      simp [item, streamKey_idle, h0, h1] at hlt ⊢
  · have hle := not_lt.1 fun hlt => hs (hsw.2 hlt)
    rw [h.act0 t ht, h.act1 t ht]
    cases h0 : (i0 0).act <;> cases h1 : (i1 0).act <;>
      simp [item, streamKey_idle, streamKey_active, h0, h1] at hle ⊢

/-- The prefixes behind the element are those in front of it, exchanged if the second item is
smaller. -/
theorem prefixOf_outs {t : ℕ} (ht : t ≤ T) :
    prefixOf (fun u => (outs (s u) (u == 0) (i0 u) (i1 u)).1.dat) t =
        (if streamKey (item i1 t) < streamKey (item i0 t) then (item i1 t).2 else (item i0 t).2) ∧
      prefixOf (fun u => (outs (s u) (u == 0) (i0 u) (i1 u)).2.dat) t =
        (if streamKey (item i1 t) < streamKey (item i0 t) then (item i0 t).2
          else (item i1 t).2) := by
  induction t with
  | zero =>
    simp only [prefixOf_zero, outs_eq, ← (h.sw_iff ht).1]
    split_ifs <;> exact ⟨rfl, rfl⟩
  | succ t ih =>
    obtain ⟨ih0, ih1⟩ := ih (by omega)
    have hlt := streamKey_lt_concat (i0 0).act (i1 0).act (i0 (t + 1)).dat (i1 (t + 1)).dat
      (item i0 t).2 (item i1 t).2
    have hitem (i : ℕ → Lane) :
        item i (t + 1) = ((i 0).act, (item i t).2 ++ [(i (t + 1)).dat]) := by
      rw [item, prefixOf_succ]
      rfl
    have hout : outs (s (t + 1)) (t + 1 == 0) (i0 (t + 1)) (i1 (t + 1)) =
        if streamKey (item i1 (t + 1)) < streamKey (item i0 (t + 1))
          then (i1 (t + 1), i0 (t + 1)) else (i0 (t + 1), i1 (t + 1)) := by
      rw [outs_eq]
      simp only [(h.sw_iff ht).1]
    rw [prefixOf_succ, prefixOf_succ, ih0, ih1, hout]
    by_cases hnow : streamKey (item i1 (t + 1)) < streamKey (item i0 (t + 1))
    · -- a late decision finds equal prefixes
      have hsofar : streamKey (item i1 t) < streamKey (item i0 t) ∨
          (item i1 t).2 = (item i0 t).2 := by
        rw [hitem, hitem] at hnow
        rcases hlt.1 hnow with hless | ⟨heq, hbits⟩
        · exact .inl hless
        · have hact : (i0 0).act = true := by
            cases hact : (i0 0).act
            · rw [hact] at hbits
              simp at hbits
            · rfl
          exact .inr (eq_of_streamKey_eq (by simp [item]) hact heq).2
      simp only [if_pos hnow]
      simp only [hitem]
      rcases hsofar with hless | heq
      · simp only [if_pos hless, and_self]
      · simp only [heq, ite_self, and_self]
    · have hsofar : ¬streamKey (item i1 t) < streamKey (item i0 t) := fun hless =>
        hnow (by rw [hitem, hitem]; exact hlt.2 (.inl hless))
      simp only [if_neg hnow, if_neg hsofar]
      simp only [hitem, and_self]

/-- Behind the element the smaller item is on its first line, in every cycle. -/
theorem item_outs {t : ℕ} (ht : t ≤ T) :
    item (fun u => (outs (s u) (u == 0) (i0 u) (i1 u)).1) t =
        (if streamKey (item i1 t) < streamKey (item i0 t) then item i1 t else item i0 t) ∧
      item (fun u => (outs (s u) (u == 0) (i0 u) (i1 u)).2) t =
        (if streamKey (item i1 t) < streamKey (item i0 t) then item i0 t else item i1 t) := by
  obtain ⟨hp0, hp1⟩ := h.prefixOf_outs ht
  have hact0 := (h.act_outs ht).1.trans (h.act_outs (Nat.zero_le T)).1.symm
  have hact1 := (h.act_outs ht).2.trans (h.act_outs (Nat.zero_le T)).2.symm
  rw [outs_eq] at hact0 hact1
  simp only [(h.sw_iff ht).1] at hact0 hact1
  by_cases hlt : streamKey (item i1 t) < streamKey (item i0 t)
  · simp only [if_pos hlt, h.act0 t ht, h.act1 t ht] at hp0 hp1 hact0 hact1 ⊢
    exact ⟨Prod.ext hact0.symm hp0, Prod.ext hact1.symm hp1⟩
  · simp only [if_neg hlt, h.act0 t ht, h.act1 t ht] at hp0 hp1 hact0 hact1 ⊢
    exact ⟨Prod.ext hact0.symm hp0, Prod.ext hact1.symm hp1⟩

/-- An element carries on the items of its lines, exchanged by key. -/
theorem carries_outs :
    Carries T (if streamKey (item i1 T) < streamKey (item i0 T) then item i1 T else item i0 T)
        (fun u => (outs (s u) (u == 0) (i0 u) (i1 u)).1) ∧
      Carries T (if streamKey (item i1 T) < streamKey (item i0 T) then item i0 T else item i1 T)
        (fun u => (outs (s u) (u == 0) (i0 u) (i1 u)).2) :=
  ⟨⟨fun _ hu => (h.act_outs hu).1.trans (h.act_outs (Nat.zero_le T)).1.symm,
      (h.item_outs le_rfl).1⟩,
    ⟨fun _ hu => (h.act_outs hu).2.trans (h.act_outs (Nat.zero_le T)).2.symm,
      (h.item_outs le_rfl).2⟩⟩

end InFrame

end CeElem

/-! ### The network -/

namespace BatcherNet

open SortingNetwork (lanes)

/-- One cycle's inputs. -/
structure Input where
  rst : Bool
  lanes : Fin 8 → Lane

/-- The network, clocked. -/
def machine : Synchronous.Machine State Input where
  step s i := posedge i.rst i.lanes s

/-- The cycles `f, …, f + T` of the inputs are those of one frame. -/
structure IsFrame (inp : ℕ → Input) (f T : ℕ) : Prop where
  rst : ∀ u ≤ T, (inp (f + u)).rst = (u == 0)
  act : ∀ u ≤ T, ∀ l, ((inp (f + u)).lanes l).act = ((inp f).lanes l).act

theorem IsFrame.mono {inp : ℕ → Input} {f t T : ℕ} (hf : IsFrame inp f T) (ht : t ≤ T) :
    IsFrame inp f t :=
  ⟨fun u hu => hf.rst u (hu.trans ht), fun u hu => hf.act u (hu.trans ht)⟩

variable {s₀ : State} {inp : ℕ → Input} {f T : ℕ}

/-- What element `e` puts out in cycle `u` of the frame that starts in cycle `f`. -/
def elementAt (s₀ : State) (inp : ℕ → Input) (f u e : ℕ) : Lane → Lane → Lane × Lane :=
  element (machine.run s₀ inp (f + u)) (u == 0) e

/-- An element of the network runs in the frame of the lanes in front of it. -/
theorem inFrame_of_carries (s₀ : State) (hf : IsFrame inp f T) {pre post : List (Fin 8 × Fin 8)}
    {c : Fin 8 × Fin 8} (hcs : comps = pre ++ c :: post) {x y : Bool × List Bool} :
    let lane u l := lanes (elementAt s₀ inp f u) 0 pre (inp (f + u)).lanes l
    Carries T x (fun u => lane u c.1) → Carries T y (fun u => lane u c.2) →
      CeElem.InFrame (fun u => machine.run s₀ inp (f + u) (Fin.ofNat 24 pre.length))
        (fun u => lane u c.1) (fun u => lane u c.2) T := by
  intro lane hx hy
  refine ⟨fun u hu => ?_, hx.1, hy.1⟩
  change posedge (inp (f + u)).rst (inp (f + u)).lanes (machine.run s₀ inp (f + u)) _ = _
  rw [posedge, elemIns_eq_lanes _ _ _ hcs, hf.rst u (by omega)]
  rfl

/-- **The network carries the items on**, sorted by key. -/
theorem carries_outsAt (s₀ : State) (hf : IsFrame inp f T) (l : Fin 8) :
    Carries T (SortingNetwork.runNet streamKey comps
        (fun l => item (fun u => (inp (f + u)).lanes l) T) l)
      (fun u => lanes (elementAt s₀ inp f u) 0 comps (inp (f + u)).lanes l) := by
  refine SortingNetwork.carries_lanes comps_ne (fun l => ⟨fun u hu => hf.act u hu l, rfl⟩)
    (fun pre c post hcs x y hx hy => ?_) l
  have h := (inFrame_of_carries s₀ hf hcs hx hy).carries_outs
  rw [hx.2, hy.2] at h
  exact h

/-- The outputs in cycle `u` of a frame. -/
def outsAt (s₀ : State) (inp : ℕ → Input) (f u : ℕ) : Fin 8 → Lane :=
  netOuts (machine.run s₀ inp (f + u)) (inp (f + u)).rst (inp (f + u)).lanes

/-- In every cycle of a frame the items at the outputs are the sorted items of the inputs. -/
theorem item_outsAt (s₀ : State) (hf : IsFrame inp f T) {t : ℕ} (ht : t ≤ T) :
    (∀ l, (outsAt s₀ inp f t l).act = (outsAt s₀ inp f 0 l).act) ∧
      (fun l => item (fun u => outsAt s₀ inp f u l) t) =
        SortingNetwork.runNet streamKey comps
          (fun l => item (fun u => (inp (f + u)).lanes l) t) := by
  have houts : ∀ u ≤ t, outsAt s₀ inp f u =
      lanes (elementAt s₀ inp f u) 0 comps (inp (f + u)).lanes := fun u hu => by
    rw [outsAt, netOuts_eq_lanes, hf.rst u (hu.trans ht)]
    rfl
  have hcarries := carries_outsAt s₀ (hf.mono ht)
  constructor
  · intro l
    rw [houts t le_rfl, houts 0 (Nat.zero_le t)]
    exact (hcarries l).1 t le_rfl
  · funext l
    rw [← (hcarries l).2]
    simp only [item, houts 0 (Nat.zero_le t)]
    rw [prefixOf_congr fun u hu => by rw [houts u (by omega)]]

/-- **Every frame is sorted in every cycle.** From any registers, in every cycle `t` of a frame
the activities and the prefixes of length `t + 1` at the outputs are a rearrangement of those at
the inputs; the active outputs are the first ones, as many as there are active inputs; and their
prefixes are in non-decreasing order, most significant bit first. -/
theorem frame_sorted (s₀ : State) (hf : IsFrame inp f T) (t : ℕ) (ht : t ≤ T) :
    let ins l := prefixOf (fun u => ((inp (f + u)).lanes l).dat) t
    let outs l := prefixOf (fun u => (outsAt s₀ inp f u l).dat) t
    let active l := ((inp (f + t)).lanes l).act
    let oact l := (outsAt s₀ inp f t l).act
    (∃ σ : Equiv.Perm (Fin 8), ∀ l, outs l = ins (σ l) ∧ oact l = active (σ l)) ∧
      (∀ l : Fin 8, oact l = decide (l.val < (Finset.univ.filter fun m => active m = true).card)) ∧
      (∀ l m, l ≤ m → oact m = true → oact l = true ∧ msbValue (outs l) ≤ msbValue (outs m)) ∧
      (Finset.univ.filter fun l => oact l = true).val.map outs =
        (Finset.univ.filter fun l => active l = true).val.map ins := by
  intro ins outs active oact
  obtain ⟨hact, hitem⟩ := item_outsAt s₀ hf ht
  obtain ⟨σ, hσ⟩ := SortingNetwork.runNet_exists_perm streamKey comps
    (fun l => item (fun u => (inp (f + u)).lanes l) t)
  have hmono := SortingNetwork.zero_one sortsBits_comps.monotone streamKey
    (fun l => item (fun u => (inp (f + u)).lanes l) t)
  rw [← hitem] at hmono
  have hout (l : Fin 8) : item (fun u => outsAt s₀ inp f u l) t = (oact l, outs l) := by
    rw [item, ← hact l]
  have hperm (l : Fin 8) : outs l = ins (σ l) ∧ oact l = active (σ l) := by
    have heq := congrFun (hitem.trans hσ) l
    rw [hout, Function.comp_apply, item, Prod.mk.injEq] at heq
    exact ⟨heq.2, heq.1.trans (hf.act t ht (σ l)).symm⟩
  have hordered (l m : Fin 8) (hlm : l ≤ m) (hm : oact m = true) :
      oact l = true ∧ msbValue (outs l) ≤ msbValue (outs m) := by
    have hle : streamKey (oact l, outs l) ≤ streamKey (oact m, outs m) := by
      simpa only [Function.comp_apply, hout] using hmono hlm
    rw [hm, streamKey_active] at hle
    cases hl : oact l with
    | false =>
      rw [hl, streamKey_idle] at hle
      exact absurd hle (by simp)
    | true =>
      rw [hl, streamKey_active] at hle
      exact ⟨rfl, WithTop.coe_le_coe.1 hle⟩
  have hsame : (Finset.univ.filter fun l => oact l = true).val.map outs =
      (Finset.univ.filter fun l => active l = true).val.map ins := by
    rw [← map_filter_perm σ active ins]
    simp only [hperm]
  refine ⟨⟨σ, hperm⟩, fun l => ?_, hordered, hsame⟩
  rw [Bool.eq_iff_iff, decide_eq_true_iff,
    eq_true_iff_lt_card (fun l m hlm hm => (hordered l m hlm hm).1) l]
  have hcard := congrArg Multiset.card hsame
  rw [Multiset.card_map, Multiset.card_map] at hcard
  exact iff_of_eq (congrArg (l.val < ·) hcard)

/-- Two active lines, `2` with the stream `110` and `5` with `101`, in a frame from cycle `3`. -/
def twoStreams (t : ℕ) : Input where
  rst := t == 3
  lanes l :=
    { act := l == 2 || l == 5
      dat := t == 3 || (l == 2 && t == 4) || (l == 5 && t == 5) }

/-- The two streams are sorted from registers full of ones. -/
theorem frame_sorted_twoStreams :
    msbValue (prefixOf (fun u => (outsAt (fun _ => ⟨true, true⟩) twoStreams 3 u 0).dat) 2) ≤
      msbValue (prefixOf (fun u => (outsAt (fun _ => ⟨true, true⟩) twoStreams 3 u 1).dat) 2) := by
  have hf : IsFrame twoStreams 3 2 := ⟨by decide, fun _ _ _ => rfl⟩
  exact ((frame_sorted (fun _ => ⟨true, true⟩) hf 2 (by decide)).2.2.1 0 1 (by decide)
    (by decide)).2

end BatcherNet

end Saltworks.RTL
