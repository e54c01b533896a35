import Saltworks.Network.Traces
import Saltworks.Switch.Delivery

/-!
# The banyan fabric under arbitrary traffic

The fabric alone, with no sorter in front of it, is offered any packets: any sources may be
active, with any destinations. It delivers a frame if and only if no two packets of the frame meet
on a line between its stages. If packets meet they are not lost: each packet leaves at one output
for the whole frame, and packets that have met leave together, combined by `or`.

## Main definitions

* `Routes`, `Routes.Presents`: one frame's packets, and lines that present them.
* `Routes.NoConflict`: no two packets meet on a line.

## Main results

* `fabric_connects_iff`: the fabric connects every source to its destination if and only if there
  is no conflict.
* `fabric_carries`: where the packets of a frame leave, with or without conflicts.
-/

namespace Saltworks.RTL.BanyanFabric

/-! ### Traffic with conflicts -/

/-- A frame's packets: the destination of each source, `none` for an idle one. -/
abbrev Routes := Fin 8 → Option (Fin 8)

namespace Routes

/-- A frame presents its packets: an active source sends a high bit before each of its destination
bits, upper bit first, and an idle source is low in the first cycle. -/
structure Presents (R : Routes) (din : ℕ → Lines) : Prop where
  act : ∀ (s : Fin 3) (i d : Fin 8), R i = some d → din (2 * s) i = true
  sel : ∀ (s : Fin 3) (i d : Fin 8), R i = some d → din (2 * s + 1) i = d.val.testBit (2 - s)
  idle : ∀ i : Fin 8, R i = none → din 0 i = false

/-- No two packets meet on a line between two stages, at the inputs or at the outputs. -/
def NoConflict (R : Routes) : Prop :=
  ∀ i d, R i = some d → ∀ j e, R j = some e → ∀ s ≤ 3,
    Banyan.line 3 s i.val d.val = Banyan.line 3 s j.val e.val → i = j

instance (R : Routes) : Decidable R.NoConflict := by
  unfold NoConflict
  infer_instance

/-- The active lines. -/
def Active (R : Routes) (i : ℕ) : Prop := ∃ l d : Fin 8, l.val = i ∧ R l = some d

/-- The destination of a line, `0` if it is not active. -/
def destOf (R : Routes) (i : ℕ) : ℕ := if h : i < 8 then ((R ⟨i, h⟩).getD 0).val else 0

variable {R : Routes} {din : ℕ → Lines}

theorem active_of_some {i d : Fin 8} (h : R i = some d) : R.Active i.val := ⟨i, d, rfl, h⟩

theorem destOf_of_some {i d : Fin 8} (h : R i = some d) : R.destOf i.val = d.val := by
  rw [destOf, dif_pos i.isLt, h, Option.getD_some]

/-- Conflicts are those of the network. -/
theorem noConflict_iff : R.NoConflict ↔ Banyan.NoConflict 3 R.Active R.destOf := by
  constructor
  · rintro h s hs _ _ ⟨i, d, rfl, hd⟩ ⟨j, e, rfl, he⟩ hline
    rw [destOf_of_some hd, destOf_of_some he] at hline
    exact congrArg Fin.val (h i d hd j e he s hs hline)
  · intro h i d hd j e he s hs hline
    rw [← destOf_of_some hd, ← destOf_of_some he] at hline
    exact Fin.ext (h s hs _ _ (active_of_some hd) (active_of_some he) hline)

/-- The lines of such a frame offer its packets to the network. -/
theorem Presents.offers (h : R.Presents din) :
    Banyan.Offers 3 R.Active R.destOf (fun c => wide (din c)) where
  source_lt := by
    rintro _ ⟨i, d, rfl, -⟩
    exact i.isLt
  dest_lt := by
    rintro _ ⟨i, d, rfl, hd⟩
    rw [destOf_of_some hd]
    exact d.isLt
  act := by
    rintro s hs _ ⟨i, d, rfl, hd⟩
    exact (wide_val _ i).trans (h.act ⟨s, hs⟩ i d hd)
  sel := by
    rintro s hs _ ⟨i, d, rfl, hd⟩
    rw [destOf_of_some hd]
    exact (wide_val _ i).trans (h.sel ⟨s, hs⟩ i d hd)
  idle i hi := by
    rw [wide]
    split_ifs with h8
    · cases hR : R ⟨i, h8⟩ with
      | none => exact h.idle _ hR
      | some d => exact absurd (active_of_some hR) hi
    · rfl

/-- `make_frame` on every line: the header of an active source and its payload, an idle source
low. -/
def makeFrame (R : Routes) (data : ℕ → Lines) (c : ℕ) : Lines := fun l =>
  match R l with
  | none => false
  | some d =>
    if c < HDR then if c % 2 = 0 then true else d.val.testBit (2 - c / 2) else data c l

/-- The same packets in frame after frame. -/
def frames (R : Routes) (payload : ℕ) (data : ℕ → Lines) (t : ℕ) : Lines :=
  R.makeFrame data (t % FRAME payload)

/-- Every frame can be presented. -/
theorem frames_presents (R : Routes) (payload : ℕ) (data : ℕ → Lines) (f : ℕ) :
    R.Presents fun c => R.frames payload data (FRAME payload * f + c) := by
  have hcycle (c : ℕ) (hc : c < HDR) :
      R.frames payload data (FRAME payload * f + c) = R.makeFrame data c := by
    have hlt : c < FRAME payload := hc.trans_le (Nat.le_add_right HDR payload)
    rw [frames, Nat.mul_add_mod, Nat.mod_eq_of_lt hlt]
  have hsix (s : Fin 3) : 2 * s.val + 1 < HDR := by
    rw [HDR]
    omega
  constructor
  · intro s i d hd
    have hs : 2 * s.val < HDR := Nat.lt_of_succ_lt (hsix s)
    rw [hcycle _ hs]
    simp only [makeFrame, hd, hs, if_true, Nat.mul_mod_right]
  · intro s i d hd
    rw [hcycle _ (hsix s)]
    simp only [makeFrame, hd, hsix s, if_true]
    rw [if_neg (by omega), show (2 * s.val + 1) / 2 = s.val by omega]
  · intro i hi
    rw [hcycle 0 (by decide)]
    simp only [makeFrame, hi]

end Routes

/-! ### What a frame delivers -/

variable {payload : ℕ} {R : Routes}

/-- In a payload cycle an output is high iff a packet whose trace ends there is high. The traces
are those of the frame's last header cycle. -/
theorem dout_eq_true (x : State payload) (din : ℕ → Lines) (hx : x.cnt = 0#_) (f : ℕ)
    (hR : R.Presents fun c => din (FRAME payload * f + c)) {c : ℕ} (h6 : HDR ≤ c)
    (hc : c < FRAME payload) (w : Lines) (l : Fin 8) :
    dout (run x din (FRAME payload * f + c)) w l = true ↔
      ∃ i d : Fin 8, R i = some d ∧
        Banyan.trace 3 ((latches (run x din (FRAME payload * f))).run 3
          (fun c => wide (din (FRAME payload * f + c))) HDR) i.val 3 = l.val ∧ w i = true := by
  rw [← wires_dout, latches_run x din hx f hc,
    hR.offers.wires_trace _ (by decide) (show 2 * 3 ≤ c from h6)]
  constructor
  · rintro ⟨_, ⟨i, d, rfl, hd⟩, htr, hw⟩
    rw [Banyan.trace_run (Nat.le_refl 3) (show 2 * 3 ≤ c from h6)] at htr
    exact ⟨i, d, hd, htr, (wide_val w i).symm.trans hw⟩
  · rintro ⟨i, d, hd, htr, hw⟩
    refine ⟨i.val, Routes.active_of_some hd, ?_, (wide_val w i).trans hw⟩
    rw [Banyan.trace_run (Nat.le_refl 3) (show 2 * 3 ≤ c from h6)]
    exact htr

/-- The network reads the eight lines only. -/
theorem wires_wide {din : ℕ → Lines} (hR : R.Presents din) (L : Banyan.Latches) {c : ℕ}
    (h6 : HDR ≤ c) (w : ℕ → Bool) (l : ℕ) :
    Banyan.wires 3 (L.run 3 (fun c => wide (din c)) c) (wide fun i => w i.val) 3 l =
      Banyan.wires 3 (L.run 3 (fun c => wide (din c)) c) w 3 l := by
  rw [Bool.eq_iff_iff, hR.offers.wires_trace L (by decide) h6,
    hR.offers.wires_trace L (by decide) h6]
  refine exists_congr fun i => and_congr_right ?_
  rintro ⟨i, d, rfl, -⟩
  rw [wide_val]

/-- In a payload cycle the fabric connects its packets as the network does. -/
theorem connects_run (x : State payload) (din : ℕ → Lines) (hx : x.cnt = 0#_) (f : ℕ)
    (hR : R.Presents fun c => din (FRAME payload * f + c)) {c : ℕ} (h6 : HDR ≤ c)
    (hc : c < FRAME payload) :
    (∀ w i d, R i = some d → dout (run x din (FRAME payload * f + c)) w d = w i) ↔
      R.NoConflict := by
  rw [Routes.noConflict_iff, ← hR.offers.connects_iff _ (by decide) (show 2 * 3 ≤ c from h6)]
  constructor
  · rintro h w _ ⟨i, d, rfl, hd⟩
    rw [Routes.destOf_of_some hd, ← wires_wide hR _ h6, ← latches_run x din hx f hc, wires_dout]
    exact h _ i d hd
  · intro h w i d hd
    rw [← wires_dout, latches_run x din hx f hc, ← Routes.destOf_of_some hd]
    exact (h (wide w) i.val (Routes.active_of_some hd)).trans (wide_val w i)

/-- **Arbitrary traffic.** For every payload length, contents of the registers and packets, in
every payload cycle of every frame after `sof` the fabric shows each source's input at its
destination, whatever the inputs are, if and only if no two packets meet on a line. Then every
other output is low. -/
theorem fabric_connects_iff (x₀ : State payload) (d₀ : Lines) (din : ℕ → Lines) (f : ℕ)
    (R : Routes) (hR : R.Presents fun c => din (FRAME payload * f + c)) (c : ℕ) (h6 : HDR ≤ c)
    (hc : c < FRAME payload) :
    ((∀ w i d, R i = some d →
        dout (afterSof x₀ d₀ din (FRAME payload * f + c)) w d = w i) ↔ R.NoConflict) ∧
    (R.NoConflict → ∀ w l, (∀ i, R i ≠ some l) →
      dout (afterSof x₀ d₀ din (FRAME payload * f + c)) w l = false) := by
  refine ⟨connects_run _ din rfl f hR h6 hc, fun hno w l hl => ?_⟩
  rw [afterSof, ← wires_dout, latches_run _ din rfl f hc]
  refine hR.offers.idle_outputs _ (by decide) (show 2 * 3 ≤ c from h6)
    (Routes.noConflict_iff.1 hno) _ ?_
  rintro _ ⟨i, d, rfl, hd⟩ he
  rw [Routes.destOf_of_some hd] at he
  exact hl i (hd.trans (congrArg some (Fin.ext he)))

/-- **Nothing is lost or doubled.** For every payload length, contents of the registers and
packets, conflicting or not, each source has in every frame after `sof` one output at which its
packet leaves in all payload cycles, and an output shows the disjunction of the packets that leave
there. -/
theorem fabric_carries (x₀ : State payload) (d₀ : Lines) (din : ℕ → Lines) (f : ℕ) (R : Routes)
    (hR : R.Presents fun c => din (FRAME payload * f + c)) :
    ∃ leaves : Fin 8 → Fin 8, ∀ c, HDR ≤ c → c < FRAME payload → ∀ w l,
      dout (afterSof x₀ d₀ din (FRAME payload * f + c)) w l = true ↔
        ∃ i, R i ≠ none ∧ leaves i = l ∧ w i = true := by
  let L := (latches (run (posedge true true d₀ x₀) din (FRAME payload * f))).run 3
    (fun c => wide (din (FRAME payload * f + c))) HDR
  refine ⟨fun i => ⟨Banyan.trace 3 L i.val 3, Banyan.trace_lt i.isLt (Nat.le_refl 3)⟩,
    fun c h6 hc w l => ?_⟩
  rw [afterSof, dout_eq_true _ din rfl f hR h6 hc]
  refine exists_congr fun i => ?_
  rw [Option.ne_none_iff_exists', exists_and_right, Fin.ext_iff]

/-- Two packets that cross: from line `0` to output `3` and from line `1` to output `0`. -/
def crossing : Routes := ![some 3, some 0, none, none, none, none, none, none]

/-- Sources out of order, delivered in the fourth frame from a fabric full of ones. -/
theorem fabric_connects_crossing :
    dout (afterSof (⟨9#_, fun _ _ => ⟨true, true, true, true⟩⟩ : State 8) (fun _ => true)
      (crossing.frames 8 fun _ _ => false) (FRAME 8 * 3 + 7)) (fun l => l == 0) 3 = true :=
  (fabric_connects_iff _ _ _ 3 crossing (crossing.frames_presents 8 _ 3) 7 (by decide)
    (by decide)).1.2 (by decide) _ 0 3 rfl

/-- Two packets that meet behind the first stage, for the outputs `0` and `1`. -/
def colliding : Routes := ![some 0, none, none, none, some 1, none, none, none]

example : ¬colliding.NoConflict := by decide

/-- Where the packets that meet leave in the fourth frame. -/
theorem fabric_carries_colliding :
    ∃ leaves : Fin 8 → Fin 8, ∀ c, HDR ≤ c → c < FRAME 8 → ∀ w l,
      dout (afterSof (⟨9#_, fun _ _ => ⟨true, true, true, true⟩⟩ : State 8) (fun _ => true)
        (colliding.frames 8 fun _ _ => false) (FRAME 8 * 3 + c)) w l = true ↔
          ∃ i, colliding i ≠ none ∧ leaves i = l ∧ w i = true :=
  fabric_carries _ _ _ 3 colliding (colliding.frames_presents 8 _ 3)

end Saltworks.RTL.BanyanFabric
