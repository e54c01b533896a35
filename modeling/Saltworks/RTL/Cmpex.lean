import Saltworks.Network.BitStream

/-!
# The bit-serial compare-exchange element `cmpex`

`RTL/cmpex.v` reads two serial lines, the destination bits first (`addr_win` high) and the payload
after them. At the first destination bit in which the lines differ it latches `newsw` into `swap`,
and the outputs are exchanged by `swap` from the next cycle on. The comment on `newsw` is
`in1 < in0 => swap so smaller goes low`, but `newsw` is high when line 1 has the larger bit; and the
first differing bit itself is routed by what an earlier frame left in `swap`.

## Main definitions

* `Cmpex.State`, `Cmpex.posedge`, `Cmpex.outs`: the element, and its outputs over a run.
* `Frame`, `Frame.inputs`, `Frame.Law`: a frame, and what the outputs should carry in it.
* `Frame.leaves`, `Frame.Meets`: what a frame leaves in `swap`, and the frames that are carried as
  they should be.

## Main results

* `Cmpex.run_inputs`, `Cmpex.law_outs_iff`: one frame.
* `Cmpex.law_iff`: after any earlier frames.
-/

namespace Saltworks.RTL

namespace Cmpex

/-- The inputs of a cycle. -/
structure Input where
  rstN : Bool
  addrWin : Bool
  in0 : Bool
  in1 : Bool
  act0 : Bool
  act1 : Bool

/-- The registers. -/
structure State where
  decided : Bool
  swap : Bool
  deriving DecidableEq

section Wires

variable (x : Input) (q : State)

def diff : Bool := x.in0 ^^ x.in1

def take : Bool := x.addrWin && !q.decided && diff x

def newsw : Bool := x.in1 && !x.in0

def s : Bool := q.swap || (!x.act0 && x.act1)

def out0 : Bool := if s x q then x.in1 else x.in0

def out1 : Bool := if s x q then x.in0 else x.in1

/-- The clock edge. -/
def posedge : State :=
  if !x.rstN then ⟨false, false⟩
  else if take x q then ⟨true, newsw x⟩
  else if !x.addrWin then { q with decided := false }
  else q

end Wires

/-- The registers after some cycles. -/
def run (q : State) : List Input → State
  | [] => q
  | x :: xs => run (posedge x q) xs

/-- `out0` and `out1` in each of these cycles. -/
def outs (q : State) : List Input → List (Bool × Bool)
  | [] => []
  | x :: xs => (out0 x q, out1 x q) :: outs (posedge x q) xs

theorem run_append (q : State) (xs ys : List Input) : run q (xs ++ ys) = run (run q xs) ys := by
  induction xs generalizing q with
  | nil => rfl
  | cons x xs ih => exact ih _

theorem outs_append (q : State) (xs ys : List Input) :
    outs q (xs ++ ys) = outs q xs ++ outs (run q xs) ys := by
  induction xs generalizing q with
  | nil => rfl
  | cons x xs ih => exact congrArg _ (ih _)

/-! ### Pairs of streams -/

/-- Two streams, exchanged or not. -/
def route (b : Bool) (ps : List (Bool × Bool)) : List (Bool × Bool) :=
  if b then ps.map Prod.swap else ps

/-- The two streams carry the same bits. -/
def Alike (ps : List (Bool × Bool)) : Prop := ∀ p ∈ ps, p.1 = p.2

instance (ps : List (Bool × Bool)) : Decidable (Alike ps) :=
  inferInstanceAs (Decidable (∀ p ∈ ps, p.1 = p.2))

theorem route_append (b : Bool) (ps ps' : List (Bool × Bool)) :
    route b (ps ++ ps') = route b ps ++ route b ps' := by
  cases b
  · rfl
  · exact List.map_append

theorem length_route (b : Bool) (ps : List (Bool × Bool)) : (route b ps).length = ps.length := by
  cases b
  · rfl
  · exact List.length_map _

theorem map_fst_route (b : Bool) (ps : List (Bool × Bool)) :
    (route b ps).map Prod.fst = if b then ps.map Prod.snd else ps.map Prod.fst := by
  cases b
  · rfl
  · rw [route, if_pos rfl, List.map_map]
    rfl

theorem map_swap_eq_iff (ps : List (Bool × Bool)) : ps.map Prod.swap = ps ↔ Alike ps := by
  induction ps with
  | nil => simp [Alike]
  | cons p ps ih =>
    obtain ⟨a, b⟩ := p
    rw [List.map_cons, List.cons.injEq, ih, Alike, Alike, List.forall_mem_cons]
    refine and_congr_left fun _ => ?_
    rw [Prod.swap_prod_mk, Prod.mk.injEq]
    exact ⟨fun h => h.2, fun h => ⟨h.symm, h⟩⟩

/-- The two routings of a pair of streams differ, unless the streams are alike. -/
theorem route_eq_iff (b b' : Bool) (ps : List (Bool × Bool)) :
    route b ps = route b' ps ↔ b = b' ∨ Alike ps := by
  cases b <;> cases b'
  · simp
  · rw [eq_comm]
    exact (map_swap_eq_iff ps).trans (by simp)
  · exact (map_swap_eq_iff ps).trans (by simp)
  · simp

theorem route_of_alike {ps : List (Bool × Bool)} (h : Alike ps) (b : Bool) : route b ps = ps :=
  (route_eq_iff b false ps).2 (Or.inr h)

/-- The same for what the first output carries. -/
theorem map_fst_route_eq_iff (b : Bool) (ps : List (Bool × Bool)) :
    (route b ps).map Prod.fst = ps.map Prod.fst ↔ b = false ∨ Alike ps := by
  rw [map_fst_route]
  cases b
  · simp
  · rw [if_pos rfl, List.map_inj_left, Alike]
    simp only [Bool.true_eq_false, false_or]
    exact forall₂_congr fun _ _ => eq_comm

end Cmpex

/-! ### Frames -/

/-- A frame: the bits of the two lines in its address cycles, those in its payload cycles, and the
activity of the lines. -/
structure Frame where
  addr : List (Bool × Bool)
  pay : List (Bool × Bool)
  act0 : Bool
  act1 : Bool
  addr_ne : addr ≠ []
  pay_ne : pay ≠ []

namespace Frame

open Cmpex
open BitStream (msbValue msbValue_lt_iff)

variable (f : Frame)

/-- The bits of the two lines. -/
def bits : List (Bool × Bool) := f.addr ++ f.pay

/-- A cycle of the frame. -/
def input (w : Bool) (p : Bool × Bool) : Input := ⟨true, w, p.1, p.2, f.act0, f.act1⟩

/-- The cycles of the frame. -/
def inputs : List Input := f.addr.map (f.input true) ++ f.pay.map (f.input false)

/-- The address of line 1 is the smaller one. -/
def Exchanged : Prop := msbValue (f.addr.map Prod.snd) < msbValue (f.addr.map Prod.fst)

instance : Decidable f.Exchanged := Nat.decLt _ _

/-- What the outputs should carry: the stream with the smaller address and the other one, if both
lines are active; the active line on `out0`, if there is one. -/
def Law (os : List (Bool × Bool)) : Prop :=
  if f.act0 && f.act1 then os = route (decide f.Exchanged) f.bits
  else if f.act0 then os.map Prod.fst = f.bits.map Prod.fst
  else if f.act1 then os.map Prod.fst = f.bits.map Prod.snd
  else True

/-- The address from the first bit on in which the lines differ. -/
def fromDiff : List (Bool × Bool) := f.addr.dropWhile fun p => p.1 == p.2

/-- What the frame leaves in `swap`, which was `w` before it: the bit of line 1 at the first
difference. -/
def leaves (w : Bool) : Bool :=
  match f.fromDiff with
  | [] => w
  | p :: _ => p.2

/-- With `w` in `swap` before it, the frame is carried as it should be: line 0 is idle; or the
addresses are equal, and `w` is low or the payloads are equal; or, with both lines active, `w` is
the right exchange and the lines are alike after the first difference; or, with line 0 alone
active, `w` is low, and line 1 is low at the first difference or the lines are alike after it. -/
def Meets (w : Bool) : Prop :=
  f.act0 = true →
    match f.fromDiff with
    | [] => w = false ∨ Alike f.pay
    | p :: rest =>
      if f.act1 then w = p.1 ∧ Alike (rest ++ f.pay)
      else w = false ∧ (p.2 = false ∨ Alike (rest ++ f.pay))

/-! ### One frame -/

/-- Line 1 alone is active. -/
def idle : Bool := !f.act0 && f.act1

variable (d w : Bool)

/-- A cycle that does not latch. -/
theorem posedge_held {d aw : Bool} {p : Bool × Bool} (h : aw = false ∨ d = true ∨ p.1 = p.2) :
    posedge (f.input aw p) ⟨d, w⟩ = ⟨d && aw, w⟩ := by
  have htake : take (f.input aw p) ⟨d, w⟩ = false := by
    obtain rfl | rfl | hp := h
    · rfl
    · simp [take, input]
    · simp [take, diff, input, hp]
  rw [posedge, if_neg (by simp [input]), if_neg (by simp [htake])]
  cases aw
  · simp [input]
  · simp [input]

/-- The cycle of the first difference. -/
theorem posedge_diff {p : Bool × Bool} (h : p.1 ≠ p.2) :
    posedge (f.input true p) ⟨false, w⟩ = ⟨true, p.2⟩ := by
  obtain ⟨a, b⟩ := p
  obtain rfl : a = !b := Bool.eq_not_of_ne h
  cases b <;> rfl

theorem outs_input (p : Bool × Bool) (aw : Bool) (xs : List Input) :
    outs ⟨d, w⟩ (f.input aw p :: xs) =
      route (w || f.idle) [p] ++ outs (posedge (f.input aw p) ⟨d, w⟩) xs := by
  have hs : s (f.input aw p) ⟨d, w⟩ = (w || f.idle) := rfl
  rw [outs, out0, out1, hs]
  cases w || f.idle <;> rfl

/-- Cycles that do not latch: in the payload, after the first difference, or while the lines are
alike. -/
theorem run_outs_held {aw d : Bool} {ps : List (Bool × Bool)}
    (h : aw = false ∨ d = true ∨ Alike ps) :
    run ⟨d, w⟩ (ps.map (f.input aw)) = ⟨d && (aw || ps.isEmpty), w⟩ ∧
      outs ⟨d, w⟩ (ps.map (f.input aw)) = route (w || f.idle) ps := by
  induction ps generalizing d with
  | nil =>
    rw [route_of_alike (by simp [Alike])]
    exact ⟨by simp [run], rfl⟩
  | cons p ps ih =>
    have hp : aw = false ∨ d = true ∨ p.1 = p.2 :=
      h.imp_right (Or.imp_right fun h => h p List.mem_cons_self)
    have hps : aw = false ∨ (d && aw) = true ∨ Alike ps := by
      obtain rfl | rfl | h := h
      · exact Or.inl rfl
      · cases aw
        · exact Or.inl rfl
        · exact Or.inr (Or.inl rfl)
      · exact Or.inr (Or.inr fun p hp => h p (List.mem_cons_of_mem _ hp))
    obtain ⟨hrun, houts⟩ := ih hps
    rw [List.map_cons, outs_input, run, f.posedge_held w hp, hrun, houts, ← route_append]
    refine ⟨?_, rfl⟩
    cases aw
    · simp
    · simp

/-- The bits before the first difference. -/
def common : List (Bool × Bool) := f.addr.takeWhile fun p => p.1 == p.2

theorem common_append : f.common ++ f.fromDiff = f.addr := List.takeWhile_append_dropWhile

theorem alike_common : Alike f.common := fun _ hp =>
  beq_iff_eq.1 (List.all_eq_true.1
    (List.all_takeWhile (p := fun p : Bool × Bool => p.1 == p.2)) _ hp)

theorem ne_of_fromDiff {p : Bool × Bool} {rest : List (Bool × Bool)}
    (h : f.fromDiff = p :: rest) : p.1 ≠ p.2 := by
  have hp := List.head?_dropWhile_not (fun p : Bool × Bool => p.1 == p.2) f.addr
  rw [show List.dropWhile _ f.addr = p :: rest from h] at hp
  exact ne_of_beq_false hp

theorem run_inputs : run ⟨false, w⟩ f.inputs = ⟨false, f.leaves w⟩ := by
  have hpay (q : State) : run q (f.pay.map (f.input false)) = ⟨false, q.swap⟩ := by
    rw [(f.run_outs_held q.swap (Or.inl rfl)).1, List.isEmpty_eq_false_iff.2 f.pay_ne]
    simp
  rw [inputs, run_append, hpay, ← f.common_append, List.map_append, run_append,
    (f.run_outs_held w (Or.inr (Or.inr f.alike_common))).1, Bool.false_and, leaves]
  cases hdiff : f.fromDiff with
  | nil => rfl
  | cons p rest =>
    rw [List.map_cons, run, f.posedge_diff w (f.ne_of_fromDiff hdiff),
      (f.run_outs_held p.2 (Or.inr (Or.inl rfl))).1]

/-- What the frame is carried as: exchanged by `w` up to and including the first difference, and
by the bit of line 1 there from then on. -/
theorem outs_of_cons {p : Bool × Bool} {rest : List (Bool × Bool)} (h : f.fromDiff = p :: rest) :
    outs ⟨false, w⟩ f.inputs =
      f.common ++ (route (w || f.idle) [p] ++ route (p.2 || f.idle) (rest ++ f.pay)) := by
  obtain ⟨hrun, houts⟩ := f.run_outs_held w (Or.inr (Or.inr f.alike_common))
  obtain ⟨hrun', houts'⟩ : run ⟨true, p.2⟩ (rest.map (f.input true)) = _ ∧
      outs ⟨true, p.2⟩ (rest.map (f.input true)) = _ := f.run_outs_held p.2 (Or.inr (Or.inl rfl))
  rw [inputs, ← f.common_append, h, List.map_append, List.append_assoc, outs_append, hrun, houts,
    route_of_alike f.alike_common, Bool.false_and, List.map_cons, List.cons_append, outs_input,
    f.posedge_diff w (f.ne_of_fromDiff h), outs_append, hrun', houts',
    (f.run_outs_held p.2 (Or.inl rfl)).2, ← route_append]

theorem outs_of_nil (h : f.fromDiff = []) :
    outs ⟨false, w⟩ f.inputs = f.common ++ route (w || f.idle) f.pay := by
  obtain ⟨hrun, houts⟩ := f.run_outs_held w (Or.inr (Or.inr f.alike_common))
  rw [inputs, ← f.common_append, h, List.append_nil, outs_append, hrun, houts,
    route_of_alike f.alike_common, Bool.false_and, (f.run_outs_held w (Or.inl rfl)).2]

theorem bits_of_cons {p : Bool × Bool} {rest : List (Bool × Bool)} (h : f.fromDiff = p :: rest) :
    f.bits = f.common ++ ([p] ++ (rest ++ f.pay)) := by
  rw [bits, ← f.common_append, h, List.append_assoc]
  rfl

theorem bits_of_nil (h : f.fromDiff = []) : f.bits = f.common ++ f.pay := by
  rw [bits, ← f.common_append, h, List.append_nil]

/-- The first difference tells which address is smaller. -/
theorem exchanged_of_cons {p : Bool × Bool} {rest : List (Bool × Bool)}
    (h : f.fromDiff = p :: rest) : decide f.Exchanged = p.1 := by
  have hcommon := List.map_congr_left fun p hp => f.alike_common p hp
  rw [Bool.eq_iff_iff, decide_eq_true_iff, Exchanged, ← f.common_append, h, List.map_append,
    List.map_append, hcommon]
  exact msbValue_lt_iff _ (f.ne_of_fromDiff h).symm (by rw [List.length_map, List.length_map])

theorem exchanged_of_nil (h : f.fromDiff = []) : decide f.Exchanged = false := by
  have hcommon := List.map_congr_left fun p hp => f.alike_common p hp
  rw [← List.append_nil f.common, ← h, f.common_append] at hcommon
  rw [decide_eq_false_iff_not, Exchanged, hcommon]
  exact lt_irrefl _

theorem map_snd_common : f.common.map Prod.snd = f.common.map Prod.fst :=
  List.map_congr_left fun p hp => (f.alike_common p hp).symm

/-- A frame is carried as it should be exactly if it meets the condition. -/
theorem law_outs_iff : f.Law (outs ⟨false, w⟩ f.inputs) ↔ f.Meets w := by
  cases hdiff : f.fromDiff with
  | nil =>
    rw [Law, Meets, f.outs_of_nil w hdiff, f.bits_of_nil hdiff, f.exchanged_of_nil hdiff, hdiff,
      idle]
    cases f.act0 <;> cases f.act1
    · simp
    · simp [map_fst_route, f.map_snd_common]
    · simpa using map_fst_route_eq_iff w f.pay
    · simpa [route_append, route_of_alike f.alike_common] using route_eq_iff w false f.pay
  | cons p rest =>
    have hne := f.ne_of_fromDiff hdiff
    have hp : ¬ Alike [p] := fun h => hne (h p (List.mem_singleton_self p))
    rw [Law, Meets, f.outs_of_cons w hdiff, f.bits_of_cons hdiff, f.exchanged_of_cons hdiff, hdiff,
      idle]
    cases f.act0 <;> cases f.act1
    · simp
    · simp [map_fst_route, f.map_snd_common]
    · have hlen : ((route w [p]).map Prod.fst).length = ([p].map Prod.fst).length := by
        rw [List.length_map, length_route, List.length_map]
      simp only [List.map_append, List.append_cancel_left_eq, Bool.not_true, Bool.and_false,
        Bool.or_false, if_true, Bool.false_eq_true, if_false,
        forall_const, List.append_eq_append_iff_of_size_eq_left hlen]
      rw [← List.map_append, map_fst_route_eq_iff, map_fst_route_eq_iff, or_iff_left hp]
    · have hlen : (route w [p]).length = (route p.1 [p]).length := by
        rw [length_route, length_route]
      simp only [route_append p.1, route_of_alike f.alike_common, List.append_cancel_left_eq,
        Bool.not_true, Bool.false_and, Bool.or_false, Bool.and_self, if_true, forall_const,
        List.append_eq_append_iff_of_size_eq_left hlen]
      rw [← route_append, route_eq_iff, route_eq_iff, or_iff_left hp, or_iff_right hne.symm]

end Frame

/-! ### Any number of frames -/

namespace Cmpex

/-- What some frames after reset leave in `swap`: the bit of line 1 at the first difference of the
latest of them in which the addresses differ. -/
def leftBy (fs : List Frame) : Bool := fs.foldl (fun w f => f.leaves w) false

theorem run_frames (w : Bool) (fs : List Frame) :
    run ⟨false, w⟩ (fs.flatMap Frame.inputs) = ⟨false, fs.foldl (fun w f => f.leaves w) w⟩ := by
  induction fs generalizing w with
  | nil => rfl
  | cons f fs ih => rw [List.flatMap_cons, run_append, f.run_inputs, ih, List.foldl_cons]

/-- After reset and any earlier frames, a frame is carried as it should be exactly if it meets the
condition with what the earlier frames left in `swap`. -/
theorem law_iff (q : State) (x : Input) (hx : x.rstN = false) (fs : List Frame) (f : Frame) :
    f.Law (outs (run (posedge x q) (fs.flatMap Frame.inputs)) f.inputs) ↔ f.Meets (leftBy fs) := by
  have hreset : posedge x q = ⟨false, false⟩ := by rw [posedge, hx]; rfl
  rw [hreset, run_frames, f.law_outs_iff, leftBy]

/-- Both lines active, addresses `0` and `1`, payloads `1` and `0`. -/
def zeroOneFrame : Frame :=
  ⟨[(false, true)], [(true, false)], true, true, List.cons_ne_nil _ _, List.cons_ne_nil _ _⟩

/-- Both lines active, addresses `1` and `0`, equal payloads. -/
def oneZeroFrame : Frame :=
  ⟨[(true, false)], [(true, true)], true, true, List.cons_ne_nil _ _, List.cons_ne_nil _ _⟩

def resetInput : Input := ⟨false, false, false, false, false, false⟩

/-- `oneZeroFrame` is carried as it should be after `zeroOneFrame`. -/
theorem law_iff_oneZeroFrame : resetInput.rstN = false ∧
    oneZeroFrame.Law (outs (run (posedge resetInput ⟨true, true⟩)
      ([zeroOneFrame].flatMap Frame.inputs)) oneZeroFrame.inputs) :=
  ⟨rfl, (law_iff ⟨true, true⟩ resetInput rfl [zeroOneFrame] oneZeroFrame).2 fun _ =>
    ⟨rfl, by decide⟩⟩

/-- The smaller address is on line 0, but the payload is exchanged. -/
theorem not_law : ¬ ∀ (q : State) (x : Input), x.rstN = false → ∀ (fs : List Frame) (f : Frame),
    f.Law (outs (run (posedge x q) (fs.flatMap Frame.inputs)) f.inputs) := by
  intro h
  have houts : outs (run (posedge resetInput ⟨false, false⟩) ([].flatMap Frame.inputs))
      zeroOneFrame.inputs = [(false, true), (false, true)] := rfl
  have hlaw : outs _ _ = route (decide zeroOneFrame.Exchanged) zeroOneFrame.bits :=
    h ⟨false, false⟩ resetInput rfl [] zeroOneFrame
  rw [houts] at hlaw
  exact absurd hlaw (by decide)

end Cmpex

end Saltworks.RTL
