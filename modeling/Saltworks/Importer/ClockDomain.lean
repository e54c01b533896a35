import Saltworks.Importer.Valuation

/-!
# The clock domain

`check_clock_domain` traces the clock net of each flop back to a root, through assigns and through
cells that are one buffer or one inverter, and accepts when all flops have the same root and the
same number of inversions modulo two.

## Main definitions

* `ClockLink`: one step of the trace.

## Main results

* `clockRoot_cases`: the trace ends, or goes on by a step.
* `clockRoot_sound`: the traced net has the value of its root, inverted or not.
* `checkClockDomain_sound`: so have the clocks of all flops.
-/

namespace Saltworks.Importer

open Silicon Fallible

/-- One step of the trace: a net is an alias of another one, or a buffer or an inverter drives it
from that one. The last argument tells whether the step inverts. -/
inductive ClockLink (insts : List Inst) (assigns : List (Net × Net)) (nm : Net) :
    Net → Bool → Prop
  | assign {m : Net} (hm : assigns.lookup nm = some m) : ClockLink insts assigns nm m false
  | buf {m : Net} {inst : Inst} {e : Expansion} {o : Pin × String} {a : Pin}
      (hnone : assigns.lookup nm = none) (hd : Drives insts nm inst e o)
      (hops : e.ops = [.buf o.2 a]) (hm : inst.conns.get? a = some m) :
      ClockLink insts assigns nm m false
  | not {m : Net} {inst : Inst} {e : Expansion} {o : Pin × String} {a : Pin}
      (hnone : assigns.lookup nm = none) (hd : Drives insts nm inst e o)
      (hops : e.ops = [.not o.2 a]) (hm : inst.conns.get? a = some m) :
      ClockLink insts assigns nm m true

section Trace

variable {insts : List Inst} {assigns : List (Net × Net)} {inputs : List Net} {depth : ℕ} {nm : Net}
  {root : Net × Bool}

/-- A trace ends at a net that has no assign and is an input or driven by no cell, or it goes on
by a step. -/
theorem clockRoot_cases
    (h : clockRoot (allDrivers insts) assigns inputs (depth + 1) nm = some root) :
    (root = (nm, false) ∧ assigns.lookup nm = none ∧
      (nm ∈ inputs ∨ ∀ inst e o, ¬ Drives insts nm inst e o)) ∨
    ∃ m q sub, ClockLink insts assigns nm m q ∧
      clockRoot (allDrivers insts) assigns inputs depth m = some sub ∧
      root = (sub.1, sub.2 ^^ q) := by
  rw [clockRoot] at h
  cases hassign : assigns.lookup nm with
  | some m =>
    simp only [hassign] at h
    exact Or.inr ⟨m, false, root, .assign hassign, h, by rw [Bool.xor_false]⟩
  | none =>
    simp only [hassign] at h
    split_ifs at h with hin
    · exact Or.inl ⟨(Option.some.inj h).symm, rfl, Or.inl hin⟩
    cases hdrv : (allDrivers insts).lookup nm with
    | none =>
      simp only [hdrv] at h
      refine Or.inl ⟨(Option.some.inj h).symm, rfl, Or.inr fun inst e o hd => ?_⟩
      exact Dict.lookup_eq_none_iff.mp hdrv
        (List.mem_map_of_mem (f := Prod.fst) (mem_allDrivers.mpr ⟨e, o, hd⟩))
    | some inst =>
      obtain ⟨e, o, hd⟩ := drives_of_lookup hdrv
      have htmp := out_mem_tmps hd.expansion hd.out
      simp only [hdrv, hd.expansion, Option.map_some] at h
      split at h
      · rename_i t a hops
        rw [Option.some.inj hops] at htmp
        obtain ⟨m, hm, h⟩ := Option.bind_eq_some_iff.mp h
        have hops : e.ops = [.buf o.2 a] := by
          rw [Option.some.inj hops, List.mem_singleton.mp htmp]
          rfl
        exact Or.inr ⟨m, false, root, .buf hassign hd hops hm, h, by rw [Bool.xor_false]⟩
      · rename_i t a hops
        rw [Option.some.inj hops] at htmp
        obtain ⟨m, hm, h⟩ := Option.bind_eq_some_iff.mp h
        obtain ⟨sub, hsub, h⟩ := Option.bind_eq_some_iff.mp h
        have hops : e.ops = [.not o.2 a] := by
          rw [Option.some.inj hops, List.mem_singleton.mp htmp]
          rfl
        exact Or.inr ⟨m, true, sub, .not hassign hd hops hm, hsub, (Option.some.inj h).symm⟩
      · cases h

/-- A step of the trace is an equation between the values of its nets. -/
theorem ClockLink.value {src : Source} {v : Net → Bool} (hv : Consistent src v) {m : Net} {q : Bool}
    (h : ClockLink src.insts src.assigns nm m q) : v nm = (v m ^^ q) := by
  cases h with
  | assign hm => rw [Bool.xor_false, hv.assign (nm, m) (Dict.mem_of_lookup hm)]
  | buf hnone hd hops hm =>
    refine hv.eq_of_drives hd ?_
    rw [hops, Bool.xor_false]
    exact ⟨_, ⟨v m, Or.inr ⟨rfl, m, hm, rfl⟩, rfl⟩, by simp [Op.tmp]⟩
  | not hnone hd hops hm =>
    refine hv.eq_of_drives hd ?_
    rw [hops, Bool.xor_true]
    exact ⟨_, ⟨!v m, ⟨v m, Or.inr ⟨rfl, m, hm, rfl⟩, rfl⟩, rfl⟩, by simp [Op.tmp]⟩

/-- A net has the value of the root of its trace, inverted by the parity. -/
theorem clockRoot_sound {src : Source} {v : Net → Bool} (hv : Consistent src v)
    (h : clockRoot (allDrivers src.insts) src.assigns inputs depth nm = some root) :
    v nm = (v root.1 ^^ root.2) := by
  induction depth generalizing nm root with
  | zero => cases h
  | succ depth ih =>
    rcases clockRoot_cases h with ⟨rfl, -⟩ | ⟨m, q, sub, hlink, hsub, rfl⟩
    · rw [Bool.xor_false]
    · rw [hlink.value hv, ih hsub, Bool.xor_assoc]

theorem clockRoot_of_checkClockDomain {drv : List (Net × Inst)} {flops : List Flop} {parity : Bool}
    {root : Net} {leaves : ℕ}
    (h : checkClockDomain flops drv assigns inputs = .ok (root, parity, leaves)) {f : Flop}
    (hf : f ∈ flops) : clockRoot drv assigns inputs clockDepth f.clk = some (root, parity) := by
  rw [checkClockDomain] at h
  obtain ⟨roots, hroots, h⟩ := bind_eq_ok h
  obtain ⟨r, hr, hroot⟩ := exists_mem_of_mapM hroots hf
  have hdomain : roots.dedup = [(root, parity)] := by
    split at h
    · rename_i hdedup
      cases h
      exact hdedup
    · cases h
  obtain rfl : r = (root, parity) := by
    rw [← List.mem_dedup, hdomain] at hr
    exact List.mem_singleton.mp hr
  cases htrace : clockRoot drv assigns inputs clockDepth f.clk with
  | none =>
    rw [htrace] at hroot
    cases hroot
  | some r =>
    rw [htrace] at hroot
    exact congrArg some (Except.ok.inj hroot)

end Trace

/-- The clocks of the flops of an accepted clock domain have the value of the root, all inverted or
none; so they change when the root changes, together and in one direction. -/
theorem checkClockDomain_sound {insts : List Inst} {assigns : List (Net × Net)} {inputs : List Net}
    {flops : List Flop} {root : Net} {parity : Bool} {leaves : ℕ}
    (h : checkClockDomain flops (allDrivers insts) assigns inputs = .ok (root, parity, leaves))
    {v : Net → Bool} (hv : Consistent ⟨insts, assigns, inputs, []⟩ v) :
    (∀ f ∈ flops, v f.clk = (v root ^^ parity)) ∧
      ∀ v', Consistent ⟨insts, assigns, inputs, []⟩ v' → v root ≠ v' root →
        ∀ f ∈ flops, v f.clk ≠ v' f.clk ∧ ∀ g ∈ flops, v f.clk = v g.clk ∧ v' f.clk = v' g.clk := by
  have hclk {w : Net → Bool} (hw : Consistent ⟨insts, assigns, inputs, []⟩ w) {f : Flop}
      (hf : f ∈ flops) : w f.clk = (w root ^^ parity) :=
    clockRoot_sound hw (clockRoot_of_checkClockDomain h hf)
  refine ⟨fun f hf => hclk hv hf, fun v' hv' hroot f hf => ⟨?_, fun g hg => ?_⟩⟩
  · rw [hclk hv hf, hclk hv' hf]
    exact fun heq => hroot (Bool.xor_left_inj.mp heq)
  · rw [hclk hv hf, hclk hv' hf, hclk hv hg, hclk hv' hg]
    exact ⟨rfl, rfl⟩

/-- A clock buffer in front of two inverters, one of them with an alias. -/
def clockTree : List Inst :=
  [⟨"clkbuf_4", "cb", .ofList [("A", "clk"), ("X", "c0")]⟩,
    ⟨"clkinv_1", "i0", .ofList [("A", "c0"), ("Y", "c1")]⟩,
    ⟨"clkinv_1", "i1", .ofList [("A", "c0"), ("Y", "c2")]⟩]

/-- A plain flop on a clock net. -/
def leafFlop (iname : String) (clk q : Net) : Flop where
  cell := "dfxtp_1"
  iname := iname
  model := dfxtp
  conns := .ofList [("CLK", clk), ("D", q), ("Q", q)]
  q := q
  clk := clk
  d := some q
  reset := none

/-- The values of the nets of the tree while `clk` has the value `b`. -/
def clockTreeValue (b : Bool) (nm : Net) : Bool := if nm ∈ ["clk", "c0"] then b else !b

/-- The flop behind the alias sees the inverted clock, and an edge at every edge of `clk`. -/
theorem checkClockDomain_sound_clockTree :
    clockTreeValue true "c3" = (clockTreeValue true "clk" ^^ true) ∧
      clockTreeValue true "c3" ≠ clockTreeValue false "c3" := by
  have h : checkClockDomain [leafFlop "f0" "c1" "q0", leafFlop "f1" "c3" "q1"]
      (allDrivers clockTree) [("c3", "c2")] ["clk"] = .ok ("clk", true, 2) := by decide
  have hv (b : Bool) : Consistent ⟨clockTree, [("c3", "c2")], ["clk"], []⟩ (clockTreeValue b) := by
    revert b
    decide
  have hf : leafFlop "f1" "c3" "q1" ∈ [leafFlop "f0" "c1" "q0", leafFlop "f1" "c3" "q1"] := by
    simp
  obtain ⟨hclk, hchange⟩ := checkClockDomain_sound h (hv true)
  exact ⟨hclk _ hf, (hchange _ (hv false) (by decide) _ hf).1⟩

end Saltworks.Importer
