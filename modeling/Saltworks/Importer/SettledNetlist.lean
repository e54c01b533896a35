import Saltworks.Importer.ElaborateSound
import Saltworks.Netlist.Settle

/-!
# Settled values of a netlist

The drivers of a net are its assigns and the outputs of combinational cells on it. Where the
leaves of a netlist have the values that an elaboration reads (`LeafOf`), its datum shows what the
nets settle to: the value that it shows is the only one that a net can settle to, and where no
net has two drivers the net does settle to it.

## Main definitions

* `cellDriver`, `netDrivers`: the drivers of a net.
* `LeafOf`: the leaves have the values that an elaboration reads.

## Main results

* `LeafOf.closed_agree`, `LeafOf.closed_settled`: the closed relations of the settled values.
-/

namespace Saltworks.Importer

/-- The driver that an output of a cell is, by the program of the cell. -/
def cellDriver (conns : Dict Pin Net) (e : Expansion) (t : String) : Driver Net Bool where
  reads := (pinsRead e.ops []).filterMap conns.get?
  value w := e.eval (fun p => (conns.get? p).map w) t
  value_congr w w' h := by
    rw [Expansion.eval, Expansion.eval, evalOps_congr fun p hp => ?_]
    cases hm : conns.get? p with
    | none => rfl
    | some m => rw [Option.map_some, Option.map_some, h m (List.mem_filterMap.mpr ⟨p, hp, hm⟩)]

/-- The drivers of a net: its assigns and the outputs of combinational cells on it. -/
def netDrivers (insts : List Inst) (assigns : List (Net × Net)) (nm : Net) :
    Set (Driver Net Bool) :=
  {d | (∃ m, (nm, m) ∈ assigns ∧ d = .copy m) ∨
    ∃ inst e o, Drives insts nm inst e o ∧ d = cellDriver inst.conns e o.2}

/-- A net of a singly driven netlist has one driver. -/
theorem drivers_unique {insts : List Inst} {assigns : List (Net × Net)}
    (h : SinglyDriven insts assigns) {nm : Net} {d d' : Driver Net Bool}
    (hd : d ∈ netDrivers insts assigns nm) (hd' : d' ∈ netDrivers insts assigns nm) : d = d' := by
  rcases hd with ⟨m, hm, rfl⟩ | ⟨inst, e, o, hdr, rfl⟩ <;>
    rcases hd' with ⟨m', hm', rfl⟩ | ⟨inst', e', o', hdr', rfl⟩
  · rw [h.assigns_unique hm hm']
  · exact (h.not_drives hm hdr').elim
  · exact (h.not_drives hm' hdr).elim
  · obtain ⟨rfl, rfl, rfl⟩ := h.drives_unique hdr hdr'
    rfl

/-- The value that a cell shows is the value that it drives, where its pins show the values that
their nets have. -/
theorem eval_of_yields_pins {R : Net → Bool → Prop} {conns : Dict Pin Net} {e : Expansion}
    {t : String} {b : Bool} {w : Net → Bool} (h : Yields (pinShows R conns) e.ops t b)
    (hw : ∀ m ∈ (pinsRead e.ops []).filterMap conns.get?, ∀ c, R m c → w m = c) :
    e.eval (fun p => (conns.get? p).map w) t = some b := by
  refine eval_of_yields h fun p hp c hc => ?_
  obtain ⟨m, hm, hR⟩ := hc
  rw [hm, Option.map_some, hw m (List.mem_filterMap.mpr ⟨p, hp, hm⟩) c hR]

/-- The leaves of a netlist have the values that an elaboration reads, when primary input `k` has
the value `x k`. -/
structure LeafOf (src : Source) (x : ℕ → Bool) (leaf : Net → Option Bool) : Prop where
  input : ∀ k nm, src.inputs[k]? = some nm → leaf nm = some (x k)
  pinned : ∀ nm b, nm ∉ src.inputs → src.pinned.lookup nm = some b → leaf nm = some b
  literal : ∀ nm, nm ∉ src.inputs → src.pinned.lookup nm = none → isLiteral nm →
    leaf nm = some (literalValue nm)
  free : ∀ nm, src.Free nm → Set.Nonempty (netDrivers src.insts src.assigns nm) → leaf nm = none

namespace LeafOf

variable {src : Source} {x : ℕ → Bool} {leaf : Net → Option Bool}

theorem copy_mem_netDrivers {nm m : Net} (hm : src.assigns.lookup nm = some m) :
    Driver.copy m ∈ netDrivers src.insts src.assigns nm :=
  Or.inl ⟨m, Dict.mem_of_lookup hm, rfl⟩

theorem cell_mem_netDrivers {nm : Net} {inst : Inst} {e : Expansion} {o : Pin × String}
    (hd : Drives src.insts nm inst e o) :
    cellDriver inst.conns e o.2 ∈ netDrivers src.insts src.assigns nm :=
  Or.inr ⟨inst, e, o, hd, rfl⟩

/-- The only value that a net can settle to is the one that the datum shows. -/
theorem closed_agree (h : LeafOf src x leaf) : Closed src x fun nm b =>
    ∀ b', Settles leaf (netDrivers src.insts src.assigns) nm b' → b' = b where
  input k nm hk b' hb' := hb'.eq_of_leaf (h.input k nm hk)
  pinned nm b hnm hb b' hb' := hb'.eq_of_leaf (h.pinned nm b hnm hb)
  literal nm hnm hnone hlit b' hb' := hb'.eq_of_leaf (h.literal nm hnm hnone hlit)
  assign nm m b hfree hm hb b' hb' := by
    have hdrive := copy_mem_netDrivers hm
    obtain ⟨w, hread, hval⟩ := hb'.driver (h.free nm hfree ⟨_, hdrive⟩) hdrive
    rw [← Option.some.inj hval]
    exact hb (w m) (hread m List.mem_cons_self)
  cell nm inst e o b hfree _ hd hb b' hb' := by
    have hdrive := cell_mem_netDrivers hd
    obtain ⟨w, hread, hval⟩ := hb'.driver (h.free nm hfree ⟨_, hdrive⟩) hdrive
    have heval : (cellDriver inst.conns e o.2).value w = some b :=
      eval_of_yields_pins hb fun m hm c hc => hc (w m) (hread m hm)
    exact Option.some.inj (hval.symm.trans heval)

/-- Where no net has two drivers, the nets settle to what the datum shows. -/
theorem closed_settled (h : LeafOf src x leaf) (hsingle : SinglyDriven src.insts src.assigns) :
    Closed src x (Settles leaf (netDrivers src.insts src.assigns)) where
  input k nm hk := .leaf (h.input k nm hk)
  pinned nm b hnm hb := .leaf (h.pinned nm b hnm hb)
  literal nm hnm hnone hlit := .leaf (h.literal nm hnm hnone hlit)
  assign nm m b hfree hm hb := by
    have hdrive := copy_mem_netDrivers hm
    refine .of_single (h.free nm hfree ⟨_, hdrive⟩) hdrive
      (fun d' hd' => drivers_unique hsingle hd' hdrive) (fun _ => b) (fun m' hm' => ?_) rfl
    rwa [List.mem_singleton.mp hm']
  cell nm inst e o b hfree _ hd hb := by
    have hdrive := cell_mem_netDrivers hd
    obtain ⟨w, hw⟩ := Settles.exists_value leaf (netDrivers src.insts src.assigns)
    refine .of_single (h.free nm hfree ⟨_, hdrive⟩) hdrive
      (fun d' hd' => drivers_unique hsingle hd' hdrive) w (fun m hm => ?_)
      (eval_of_yields_pins hb fun m _ c hc => hw m c hc)
    obtain ⟨p, hp, hpm⟩ := List.mem_filterMap.mp hm
    obtain ⟨L, hruns, -⟩ := hb
    obtain ⟨c, m', hm', hc⟩ := hruns.exists_pin hp
    obtain rfl : m' = m := Option.some.inj (hm'.symm.trans hpm)
    rwa [hw m' c hc]

end LeafOf

end Saltworks.Importer
