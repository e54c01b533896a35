import Saltworks.HDL.BatcherNetC
import Saltworks.Network.BitStream
import Saltworks.Switch.Delivery

/-!
# The sorter and the fabric end to end

The eight outputs of `batcherNetC` feed the fabric in the same cycle, and the sorter restarts
where the fabric's frame counter is `0`. An element of the sorter decides within the six header
cycles unless its two keys are equal, and then holds its decision to the end of the frame. A late
decision can only be one between two idle lines, whose payload cycles nothing reads.

## Main definitions

* `HDL.CeC.lineKey`, `HDL.CeC.header`: what an element compares, and the header it reads.
* `BatcherBanyan.State`, `BatcherBanyan.step`, `BatcherBanyan.dout`.
* `BatcherBanyan.Load`, `BatcherBanyan.Load.Presents`, `BatcherBanyan.Load.Carries`.

## Main results

* `HDL.CeC.outs_header`: within the header an element orders its lines by key.
* `BatcherBanyan.Load.carries_sorted`: the sorter carries the lines on, ordered by key.
* `BatcherBanyan.switch_delivers`.
-/

namespace Saltworks.HDL.CeC

/-- The order of the lines: active ones by destination, idle ones last. -/
def lineKey (active : Bool) (dest : Fin 8) : ℕ := if active then dest.val else 8

/-- The header of a line's frame. -/
def header (active : Bool) (dest : Fin 8) (u : ℕ) : Bool := (cFrame active dest []).getD u false

/-- The reset masks the state: the first cycle of a frame does not read it. -/
theorem outs_rst (s s' : State) (i0 i1 : Bool) : outs s true i0 i1 = outs s' true i0 i1 := by
  simp [outs, sw, d, newSw, p, ba]

theorem next_rst (s s' : State) (i0 i1 : Bool) : next s true i0 i1 = next s' true i0 i1 := by
  simp [next, sw, d, newSw, p, ba]

/-- The state of an element in cycle `u` of a frame that it starts in state `s`. -/
def frameRun (s : State) (i0 i1 : ℕ → Bool) : ℕ → State
  | 0 => s
  | u + 1 => next (frameRun s i0 i1 u) (u == 0) (i0 u) (i1 u)

/-- The outputs in cycle `u` of a frame. -/
def frameOuts (s : State) (i0 i1 : ℕ → Bool) (u : ℕ) : Bool × Bool :=
  outs (frameRun s i0 i1 u) (u == 0) (i0 u) (i1 u)

theorem frameRun_congr {s : State} {i0 i1 j0 j1 : ℕ → Bool} {t : ℕ}
    (h : ∀ u < t, i0 u = j0 u ∧ i1 u = j1 u) : frameRun s i0 i1 t = frameRun s j0 j1 t := by
  induction t with
  | zero => rfl
  | succ t ih =>
    obtain ⟨h0, h1⟩ := h t (Nat.lt_succ_self t)
    rw [frameRun, frameRun, ih fun u hu => h u (Nat.lt_succ_of_lt hu), h0, h1]

theorem frameRun_rst (s s' : State) (i0 i1 : ℕ → Bool) (u : ℕ) :
    frameRun s i0 i1 (u + 1) = frameRun s' i0 i1 (u + 1) := by
  induction u with
  | zero => exact next_rst s s' _ _
  | succ u ih => rw [frameRun, ih, ← frameRun]

theorem frameOuts_rst (s s' : State) (i0 i1 : ℕ → Bool) (u : ℕ) :
    frameOuts s i0 i1 u = frameOuts s' i0 i1 u := by
  cases u with
  | zero => exact outs_rst s s' _ _
  | succ u => rw [frameOuts, frameOuts, frameRun_rst s s']

/-- The headers of two lines against an element that starts undecided. -/
theorem frameRun_header (a b : Bool) (x y : Fin 8) :
    (∀ u < 6, frameOuts ⟨false, false, false, false⟩ (header a x) (header b y) u =
      if lineKey b y < lineKey a x then (header b y u, header a x u)
        else (header a x u, header b y u)) ∧
    (lineKey a x = lineKey b y ∨
      (frameRun ⟨false, false, false, false⟩ (header a x) (header b y) 6).decided = true ∧
      (frameRun ⟨false, false, false, false⟩ (header a x) (header b y) 6).swap =
        decide (lineKey b y < lineKey a x)) := by
  revert a b x y
  decide

section Frame

variable {a b : Bool} {x y : Fin 8} {i0 i1 : ℕ → Bool}

/-- In the header cycles an element orders its lines by key, whatever its state before. -/
theorem outs_header (h0 : ∀ u < 6, i0 u = header a x u) (h1 : ∀ u < 6, i1 u = header b y u)
    (s : State) {u : ℕ} (hu : u < 6) :
    frameOuts s i0 i1 u = if lineKey b y < lineKey a x then (i1 u, i0 u) else (i0 u, i1 u) := by
  have hcongr := frameRun_congr (s := ⟨false, false, false, false⟩)
    fun v (hv : v < u) => ⟨h0 v (hv.trans hu), h1 v (hv.trans hu)⟩
  rw [frameOuts_rst s ⟨false, false, false, false⟩, frameOuts, hcongr, h0 u hu, h1 u hu]
  exact (frameRun_header a b x y).1 u hu

/-- Behind the header an element with different keys holds its decision. -/
theorem decided_of_ne (h0 : ∀ u < 6, i0 u = header a x u) (h1 : ∀ u < 6, i1 u = header b y u)
    (hne : lineKey a x ≠ lineKey b y) (s : State) {u : ℕ} (hu : 6 ≤ u) :
    (frameRun s i0 i1 u).decided = true ∧
      (frameRun s i0 i1 u).swap = decide (lineKey b y < lineKey a x) := by
  induction u, hu using Nat.le_induction with
  | base =>
    rw [frameRun_rst s ⟨false, false, false, false⟩ i0 i1 5,
      frameRun_congr fun v hv => ⟨h0 v hv, h1 v hv⟩]
    exact ((frameRun_header a b x y).2.resolve_left hne)
  | succ u hu ih =>
    have hu0 : (u == 0) = false := beq_false_of_ne (by omega)
    simp only [frameRun, next, sw, d, ih.1, ih.2, hu0]
    simp

/-- With different keys, an element orders its lines for the whole frame. -/
theorem frameOuts_of_ne (h0 : ∀ u < 6, i0 u = header a x u) (h1 : ∀ u < 6, i1 u = header b y u)
    (hne : lineKey a x ≠ lineKey b y) (s : State) (u : ℕ) :
    frameOuts s i0 i1 u = if lineKey b y < lineKey a x then (i1 u, i0 u) else (i0 u, i1 u) := by
  by_cases hu : u < 6
  · exact outs_header h0 h1 s hu
  · obtain ⟨hdec, hswap⟩ := decided_of_ne h0 h1 hne s (Nat.not_lt.1 hu)
    have hu0 : (u == 0) = false := beq_false_of_ne (by omega)
    rw [frameOuts, outs_eq]
    simp only [sw, d, hdec, hswap, hu0]
    simp

end Frame

end Saltworks.HDL.CeC

namespace Saltworks.BatcherBanyan

open HDL (batcherNetC stepSeq bnComps bnCSlice cFrame)
open HDL.CeC (lineKey header frameRun frameOuts)
open RTL.BanyanFabric (Lines FRAME HDR Traffic)
open SortingNetwork (runNet lanes)

variable {payload : ℕ}

/-- The state bits of the sorter, and the fabric. -/
structure State (payload : ℕ) where
  sorter : List Bool
  fabric : RTL.BanyanFabric.State payload

section Wires

variable (x : State payload) (lines : Lines)

/-- The sorter's `rst`. -/
def rst : Bool := x.fabric.cnt.toNat == 0

/-- The sorter's outputs and next state. -/
def sort : List Bool × List Bool := stepSeq batcherNetC x.sorter (rst x :: List.ofFn lines)

/-- The fabric's `din`. -/
def din : Lines := fun l => (sort x lines).1.getD l false

def dout : Lines := RTL.BanyanFabric.dout x.fabric (din x lines)

end Wires

/-- The switch, clocked, with `rst_n` high and `sof` low. -/
def machine (payload : ℕ) : Synchronous.Machine (State payload) Lines where
  step x lines :=
    { sorter := (sort x lines).2
      fabric := RTL.BanyanFabric.posedge true false (din x lines) x.fabric }

/-- The state in cycle `t`. -/
def run (x₀ : State payload) (lines : ℕ → Lines) (t : ℕ) : State payload :=
  (machine payload).run x₀ lines t

/-! ### Loads -/

/-- What a frame is to carry: the active lines, with pairwise distinct destinations, and their
payloads. -/
structure Load (payload : ℕ) where
  active : Fin 8 → Bool
  dest : Fin 8 → Fin 8
  data : Fin 8 → Fin payload → Bool
  distinct : ∀ x y, active x = true → active y = true → dest x = dest y → x = y

namespace Load

variable (L : Load payload)

/-- A frame presents its load: an active line sends its `cFrame`, and any other line is low in the
header cycles. -/
structure Presents (frame : ℕ → Lines) : Prop where
  active : ∀ x, L.active x = true → ∀ c < FRAME payload,
    (cFrame true (L.dest x) (List.ofFn (L.data x)))[c]? = some (frame c x)
  idle : ∀ x, L.active x = false → ∀ c < HDR, frame c x = false

def key (x : Fin 8) : ℕ := lineKey (L.active x) (L.dest x)

/-- A stream carries line `x`: it has the line's header and, if `x` is active, all of its frame. -/
def Carries (frame : ℕ → Lines) (x : Fin 8) (stream : ℕ → Bool) : Prop :=
  (∀ u < HDR, stream u = header (L.active x) (L.dest x) u) ∧
    (L.active x = true → ∀ u < FRAME payload, stream u = frame u x)

variable {L} {frame : ℕ → Lines}

theorem cFrame_eq_append (active : Bool) (dest : ℕ) (data : List Bool) :
    cFrame active dest data = cFrame active dest [] ++ data := by
  simp [cFrame]

theorem getElem?_cFrame_header {active : Bool} {dest : Fin 8} (data : List Bool) {u : ℕ}
    (hu : u < HDR) : (cFrame active dest data)[u]? = some (header active dest u) := by
  rw [cFrame_eq_append, List.getElem?_append_left (show u < 6 from hu), header]
  have hlen : u < (cFrame active dest []).length := hu
  rw [List.getD_eq_getElem?_getD, List.getElem?_eq_getElem hlen, Option.getD_some]

theorem header_idle (dest : Fin 8) {u : ℕ} (hu : u < HDR) : header false dest u = false := by
  revert dest u
  decide

/-- What a stream carries is read in the cycles of the frame only. -/
theorem Carries.congr {x : Fin 8} {i j : ℕ → Bool} (h : L.Carries frame x i)
    (hij : ∀ u < FRAME payload, j u = i u) : L.Carries frame x j :=
  ⟨fun u hu => (hij u (Nat.lt_of_lt_of_le hu (Nat.le_add_right HDR payload))).trans (h.1 u hu),
    fun hx u hu => (hij u hu).trans (h.2 hx u hu)⟩

/-- The lines of a frame carry themselves. -/
theorem Presents.carries (h : L.Presents frame) (x : Fin 8) :
    L.Carries frame x fun u => frame u x := by
  refine ⟨fun u hu => ?_, fun _ _ _ => rfl⟩
  cases hx : L.active x with
  | false => exact (h.idle x hx u hu).trans (header_idle _ hu).symm
  | true =>
    have hline := h.active x hx u (Nat.lt_of_lt_of_le hu (Nat.le_add_right HDR payload))
    rw [getElem?_cFrame_header _ hu] at hline
    exact (Option.some_inj.1 hline).symm

/-- Lines with equal keys are both idle or the same. -/
theorem eq_of_key_eq {x y : Fin 8} (h : L.key x = L.key y) (hx : L.active x = true) : x = y := by
  have hxlt := (L.dest x).isLt
  rw [key, key, lineKey, lineKey, hx, if_pos rfl] at h
  cases hy : L.active y with
  | false =>
    rw [hy, if_neg Bool.false_ne_true] at h
    omega
  | true =>
    rw [hy, if_pos rfl] at h
    exact L.distinct x y hx hy (Fin.ext h)

theorem active_iff_key_lt {x : Fin 8} : L.active x = true ↔ L.key x < 8 := by
  have hxlt := (L.dest x).isLt
  cases hx : L.active x <;> simp [key, lineKey, hx]

/-- An element of the sorter carries its two lines on, ordered by key. -/
theorem carries_frameOuts {x y : Fin 8} {i0 i1 : ℕ → Bool} (hx : L.Carries frame x i0)
    (hy : L.Carries frame y i1) (s : HDL.CeC.State) :
    L.Carries frame (if L.key y < L.key x then y else x) (fun u => (frameOuts s i0 i1 u).1) ∧
      L.Carries frame (if L.key y < L.key x then x else y)
        (fun u => (frameOuts s i0 i1 u).2) := by
  have hheader (u : ℕ) (hu : u < 6) := HDL.CeC.outs_header hx.1 hy.1 s hu
  by_cases hne : L.key x = L.key y
  · have hnot : ¬lineKey (L.active y) (L.dest y) < lineKey (L.active x) (L.dest x) :=
      not_lt.2 (le_of_eq hne)
    simp only [if_neg hnot] at hheader
    rw [if_neg (show ¬L.key y < L.key x from hnot), if_neg (show ¬L.key y < L.key x from hnot)]
    -- whatever is decided behind the header, the lines are idle or carry the same
    have hsame (hact : L.active x = true ∨ L.active y = true) (u : ℕ) (hu : u < FRAME payload) :
        frameOuts s i0 i1 u = (frame u x, frame u y) := by
      have hxy : x = y := hact.elim (eq_of_key_eq hne) fun hy => (eq_of_key_eq hne.symm hy).symm
      subst hxy
      have hact : L.active x = true := hact.elim id id
      rw [frameOuts, HDL.CeC.outs_eq, hx.2 hact u hu, hy.2 hact u hu, ite_self]
    constructor
    · exact ⟨fun u hu => (congrArg Prod.fst (hheader u hu)).trans (hx.1 u hu),
        fun hact u hu => congrArg Prod.fst (hsame (.inl hact) u hu)⟩
    · exact ⟨fun u hu => (congrArg Prod.snd (hheader u hu)).trans (hy.1 u hu),
        fun hact u hu => congrArg Prod.snd (hsame (.inr hact) u hu)⟩
  · have houts := HDL.CeC.frameOuts_of_ne hx.1 hy.1 hne s
    by_cases hlt : L.key y < L.key x
    · have houts (u : ℕ) : frameOuts s i0 i1 u = (i1 u, i0 u) := (houts u).trans (if_pos hlt)
      simp only [if_pos hlt, houts]
      exact ⟨hy, hx⟩
    · have houts (u : ℕ) : frameOuts s i0 i1 u = (i0 u, i1 u) := (houts u).trans (if_neg hlt)
      simp only [if_neg hlt, houts]
      exact ⟨hx, hy⟩

end Load

/-! ### The sorter in a frame -/

variable (x₀ : State payload) (lines : ℕ → Lines)

theorem run_succ (t : ℕ) :
    run x₀ lines (t + 1) = (machine payload).step (run x₀ lines t) (lines t) := rfl

/-- The fabric runs on what the sorter puts out. -/
theorem fabric_run (t : ℕ) : (run x₀ lines t).fabric =
    RTL.BanyanFabric.run x₀.fabric (fun t => din (run x₀ lines t) (lines t)) t := by
  induction t with
  | zero => rfl
  | succ t ih => rw [run_succ, RTL.BanyanFabric.run_succ, ← ih]; rfl

/-- The elements' outputs in cycle `u` of frame `f`. -/
def elemOut (f u e : ℕ) : Bool → Bool → Bool × Bool :=
  HDL.CeC.outs (bnCSlice (run x₀ lines (FRAME payload * f + u)).sorter e) (u == 0)

variable {x₀} (h₀ : x₀.fabric.cnt = 0#_) (f : ℕ)

include h₀

/-- The sorter restarts in the first cycle of every frame. -/
theorem rst_run {u : ℕ} (hu : u < FRAME payload) :
    rst (run x₀ lines (FRAME payload * f + u)) = (u == 0) := by
  rw [rst, fabric_run, RTL.BanyanFabric.run_cnt _ _ h₀, Nat.mul_add_mod, Nat.mod_eq_of_lt hu]

/-- The fabric reads the lanes behind the elements. -/
theorem din_run {u : ℕ} (hu : u < FRAME payload) :
    din (run x₀ lines (FRAME payload * f + u)) (lines (FRAME payload * f + u)) =
      lanes (elemOut x₀ lines f u) 0 bnComps (lines (FRAME payload * f + u)) := by
  funext l
  rw [din, sort, rst_run lines h₀ f hu, (HDL.stepSeq_batcherNetC _ _ _).1,
    List.getD_eq_getElem?_getD, List.getElem?_ofFn, dif_pos l.isLt]
  rfl

/-- Each element runs through the frame on the lanes in front of it. -/
theorem elemOut_eq_frameOuts {pre post : List (Fin 8 × Fin 8)} {c : Fin 8 × Fin 8}
    (hcs : bnComps = pre ++ c :: post) {u : ℕ} (hu : u < FRAME payload) :
    let lane u l := lanes (elemOut x₀ lines f u) 0 pre (lines (FRAME payload * f + u)) l
    elemOut x₀ lines f u pre.length (lane u c.1) (lane u c.2) =
      frameOuts (bnCSlice (run x₀ lines (FRAME payload * f)).sorter pre.length)
        (fun u => lane u c.1) (fun u => lane u c.2) u := by
  intro lane
  suffices h : bnCSlice (run x₀ lines (FRAME payload * f + u)).sorter pre.length =
      frameRun (bnCSlice (run x₀ lines (FRAME payload * f)).sorter pre.length)
        (fun u => lane u c.1) (fun u => lane u c.2) u by
    rw [elemOut, h, frameOuts]
  induction u with
  | zero => rfl
  | succ u ih =>
    have hu' : u < FRAME payload := Nat.lt_of_succ_lt hu
    have hsorter : (run x₀ lines (FRAME payload * f + (u + 1))).sorter =
        HDL.nexts (bnCSlice (run x₀ lines (FRAME payload * f + u)).sorter) (u == 0) 0 bnComps
          (lines (FRAME payload * f + u)) := by
      rw [← rst_run lines h₀ f hu']
      exact (HDL.stepSeq_batcherNetC _ _ _).2
    rw [hsorter, hcs, HDL.bnCSlice_nexts, Nat.zero_add, frameRun, ← ih hu']
    rfl

/-- **The sorter carries the lines on**, ordered by key. -/
theorem Load.carries_sorted {L : Load payload}
    (hL : L.Presents fun c => lines (FRAME payload * f + c)) (l : Fin 8) :
    L.Carries (fun c => lines (FRAME payload * f + c)) (runNet L.key bnComps id l) fun u =>
      lanes (elemOut x₀ lines f u) 0 bnComps (lines (FRAME payload * f + u)) l := by
  refine SortingNetwork.carries_lanes HDL.bnComps_ne hL.carries
    (fun pre c post hcs x y hx hy => ?_) l
  obtain ⟨h1, h2⟩ := carries_frameOuts hx hy
    (bnCSlice (run x₀ lines (FRAME payload * f)).sorter pre.length)
  have helem (u : ℕ) (hu : u < FRAME payload) := elemOut_eq_frameOuts lines h₀ f hcs hu
  exact ⟨h1.congr fun u hu => congrArg Prod.fst (helem u hu),
    h2.congr fun u hu => congrArg Prod.snd (helem u hu)⟩

/-! ### Delivery -/

omit h₀ in
/-- Behind the sorter the active lines are the first ones, with increasing destinations. -/
theorem Load.exists_traffic (L : Load payload) :
    ∃ (T : Traffic) (σ : Equiv.Perm (Fin 8)), (∀ l, runNet L.key bnComps id l = σ l) ∧
      (∀ l, L.active (σ l) = true ↔ l.val < T.n) ∧
      ∀ i, T.dest i = L.dest (σ (T.source i)) := by
  obtain ⟨σ, hσ⟩ := SortingNetwork.runNet_exists_perm L.key bnComps id
  have hmono := SortingNetwork.zero_one HDL.sortsBits_bnComps.monotone L.key id
  rw [hσ] at hmono
  have hactive (l : Fin 8) : L.active (σ l) = true ↔
      l.val < (Finset.univ.filter fun l => L.active (σ l) = true).card := by
    refine BitStream.eq_true_iff_lt_card (p := fun l => L.active (σ l)) (fun l m hlm hm => ?_) l
    rw [active_iff_key_lt] at hm ⊢
    exact lt_of_le_of_lt (hmono hlm) hm
  have hle : (Finset.univ.filter fun l => L.active (σ l) = true).card ≤ 8 := by
    simpa using Finset.card_filter_le Finset.univ fun l => L.active (σ l) = true
  have hkey (l : Fin 8) (hl : L.active (σ l) = true) : L.key (σ l) = (L.dest (σ l)).val := by
    rw [key, lineKey, if_pos hl]
  refine ⟨⟨_, fun i => L.dest (σ (i.castLE hle)), fun i j hij => ?_⟩, σ, congrFun hσ, hactive,
    fun _ => rfl⟩
  have hi := (hactive (i.castLE hle)).2 i.isLt
  have hj := (hactive (j.castLE hle)).2 j.isLt
  refine lt_of_le_of_ne ?_ fun heq => ?_
  · have hkeys := hmono (show i.castLE hle ≤ j.castLE hle from hij.le)
    simp only [Function.comp_apply, id_eq, hkey _ hi, hkey _ hj] at hkeys
    exact hkeys
  · have hcast := σ.injective (L.distinct _ _ hi hj heq)
    exact hij.ne (Fin.castLE_injective hle hcast)

/-- The sorted lanes present the traffic. -/
theorem Load.presents_sorted {L : Load payload}
    (hL : L.Presents fun c => lines (FRAME payload * f + c)) {T : Traffic}
    {σ : Equiv.Perm (Fin 8)} (hσ : ∀ l, runNet L.key bnComps id l = σ l)
    (hactive : ∀ l, L.active (σ l) = true ↔ l.val < T.n)
    (hdest : ∀ i, T.dest i = L.dest (σ (T.source i))) :
    T.Presents fun c => din (run x₀ lines (FRAME payload * f + c))
      (lines (FRAME payload * f + c)) := by
  have hheader (l : Fin 8) (u : ℕ) (hu : u < HDR) :
      din (run x₀ lines (FRAME payload * f + u)) (lines (FRAME payload * f + u)) l =
        header (L.active (σ l)) (L.dest (σ l)) u := by
    rw [din_run lines h₀ f (Nat.lt_of_lt_of_le hu (Nat.le_add_right HDR payload)), ← hσ l]
    exact (carries_sorted lines h₀ f hL l).1 u hu
  have hbits : ∀ (s : Fin 3) (d : Fin 8), header true d (2 * s) = true ∧
      header true d (2 * s + 1) = d.val.testBit (2 - s) := by decide
  have hsource (i : Fin T.n) : L.active (σ (T.source i)) = true := (hactive _).2 i.isLt
  have hs (s : Fin 3) : 2 * s.val + 1 < HDR := by
    have := s.isLt
    change _ < 6
    omega
  constructor
  · intro s i
    rw [hheader _ _ (Nat.lt_of_succ_lt (hs s)), hsource i]
    exact (hbits s _).1
  · intro s i
    rw [hheader _ _ (hs s), hsource i, hdest i]
    exact (hbits s _).2
  · intro s l hl
    rw [hheader _ _ (Nat.lt_of_succ_lt (hs s)),
      Bool.eq_false_iff.2 fun h => absurd ((hactive l).1 h) (Nat.not_lt.2 hl)]
    exact header_idle _ (Nat.lt_of_succ_lt (hs s))

/-- **Delivery at any load.** Whatever the sorter's state bits and the fabric's elements hold when
the frame counter is `0`, and whatever later frames leave behind: in the payload cycles of a frame
that presents its load, the output numbered by an active line's destination shows that line's
payload, and every other output is low. -/
theorem switch_delivers (L : Load payload)
    (hL : L.Presents fun c => lines (FRAME payload * f + c)) (c : Fin payload) :
    (∀ x, L.active x = true →
      dout (run x₀ lines (FRAME payload * f + (HDR + c))) (lines (FRAME payload * f + (HDR + c)))
        (L.dest x) = L.data x c) ∧
    ∀ d, (∀ x, L.active x = true → L.dest x ≠ d) →
      dout (run x₀ lines (FRAME payload * f + (HDR + c))) (lines (FRAME payload * f + (HDR + c)))
        d = false := by
  obtain ⟨T, σ, hσ, hactive, hdest⟩ := L.exists_traffic
  have hT := Load.presents_sorted lines h₀ f hL hσ hactive hdest
  have hc : HDR + c.val < FRAME payload := Nat.add_lt_add_left c.isLt HDR
  obtain ⟨hout, hlow⟩ := RTL.BanyanFabric.dout_run x₀.fabric
    (fun t => din (run x₀ lines t) (lines t)) h₀ T f hT hc (Nat.le_add_right HDR c)
  simp only [← fabric_run] at hout hlow
  constructor
  · intro x hx
    -- the lane behind the sorter that carries the line
    have hsrc : (σ.symm x).val < T.n := (hactive _).1 (by rw [σ.apply_symm_apply, hx])
    have hline : σ (T.source ⟨σ.symm x, hsrc⟩) = x := σ.apply_symm_apply x
    have h := hout ⟨σ.symm x, hsrc⟩
    rw [hdest, hline] at h
    have hcarries := (Load.carries_sorted lines h₀ f hL (T.source ⟨σ.symm x, hsrc⟩)).2
    rw [hσ, hline] at hcarries
    rw [dout, h, din_run lines h₀ f hc]
    refine (hcarries hx _ hc).trans ?_
    have hdata := hL.active x hx (HDR + c) hc
    rw [Load.cFrame_eq_append, List.getElem?_append_right (Nat.le_add_right HDR c)] at hdata
    change (List.ofFn (L.data x))[HDR + c.val - HDR]? = _ at hdata
    rw [Nat.add_sub_cancel_left, List.getElem?_ofFn, dif_pos c.isLt] at hdata
    exact (Option.some_inj.1 hdata).symm
  · intro d hd
    refine hlow d fun i hi => hd (σ (T.source i)) ((hactive _).2 i.isLt) ?_
    rw [← hdest, hi]

omit h₀

/-- Two active lines, from `2` to output `6` with payload `10` and from `5` to output `1` with
payload `01`. -/
def twoLines : Load 2 where
  active x := x == 2 || x == 5
  dest x := if x = 2 then 6 else 1
  data x c := (x == 2) == (c == 0)
  distinct := by decide

/-- Their frames, with high idle lines in the payload cycles. -/
def twoLinesFrames (t : ℕ) : Lines := fun x =>
  if twoLines.active x then
    (cFrame true (twoLines.dest x) (List.ofFn (twoLines.data x))).getD (t % 8) false
  else 6 ≤ t % 8

/-- Delivery of the two lines in the third frame, from registers full of ones. -/
theorem switch_delivers_twoLines :
    dout (run (⟨List.replicate 96 true, 0#_, fun _ _ => ⟨true, true, true, true⟩⟩ : State 2)
      twoLinesFrames (FRAME 2 * 2 + (HDR + 1))) (twoLinesFrames (FRAME 2 * 2 + (HDR + 1))) 1
        = true := by
  have hL : twoLines.Presents fun c => twoLinesFrames (FRAME 2 * 2 + c) := by
    constructor
    · decide
    · decide
  exact (switch_delivers twoLinesFrames rfl 2 twoLines hL 1).1 5 rfl

end Saltworks.BatcherBanyan
