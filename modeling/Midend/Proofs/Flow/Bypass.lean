import Midend.Proofs.Flow.Dominance

/-!
# Ways around a block

A block guards another one if no way from the entry leads around it (`guards_iff_not_bypasses`).
Ways around a block are followed one edge at a time (`Bypasses.induct`), so to compare the guards of
two functions it is enough to follow each edge of one along edges of the other.

Whether there is a way around is found by a search in the graph without the block, which makes
`Func.Live` and `Func.Guards` decidable.
-/

namespace Midend

namespace Func

variable {f g : Func} {a b d e : BlockId}

/-- Some way from the entry leads to the second block without going through the first. -/
def Bypasses (f : Func) (d b : BlockId) : Prop :=
  ∃ e, f.entry = some e ∧ ∃ path, f.flow.Walk e path b ∧ d ∉ path

theorem guards_iff_not_bypasses : f.Guards d b ↔ ¬ f.Bypasses d b := by
  constructor
  · rintro h ⟨e, hEntry, path, w, hNot⟩
    exact hNot (h e hEntry path w)
  · intro h e hEntry path w
    by_contra hNot
    exact h ⟨e, hEntry, path, w, hNot⟩

theorem Bypasses.entry (hEntry : f.entry = some e) (hne : e ≠ d) : f.Bypasses d e :=
  ⟨e, hEntry, [e], .nil e, fun h => hne (List.mem_singleton.mp h).symm⟩

theorem Bypasses.step (h : f.Bypasses d a) (edge : b ∈ f.succs a) (hne : b ≠ d) :
    f.Bypasses d b := by
  obtain ⟨e, hEntry, path, w, hNot⟩ := h
  refine ⟨e, hEntry, path ++ [b], w.snoc edge, fun hMem => ?_⟩
  rcases List.mem_append.mp hMem with hMem | hMem
  · exact hNot hMem
  · exact hne (List.mem_singleton.mp hMem).symm

theorem Bypasses.ne (h : f.Bypasses d b) : b ≠ d := by
  obtain ⟨e, -, path, w, hNot⟩ := h
  exact fun hEq => hNot (hEq ▸ w.right_mem)

/-- What holds at the entry and is carried along edges around a block holds wherever they lead. -/
theorem Bypasses.induct {P : BlockId → Prop} (h : f.Bypasses d b)
    (base : ∀ e, f.entry = some e → e ≠ d → P e)
    (step : ∀ a b, f.Bypasses d a → P a → b ∈ f.succs a → b ≠ d → P b) : P b := by
  obtain ⟨e, hEntry, path, w, hNot⟩ := h
  have along : ∀ {x y : BlockId} {path : List BlockId}, f.flow.Walk x path y → d ∉ path →
      f.Bypasses d x → P x → P y := by
    intro x y path w
    induction w with
    | nil x => exact fun _ _ hP => hP
    | @cons x m y path edge rest ih =>
      intro hNot hBy hP
      have hNot' : d ∉ path := fun hMem => hNot (List.mem_cons_of_mem _ hMem)
      have hne : m ≠ d := fun hEq => hNot' (hEq ▸ rest.left_mem)
      exact ih hNot' (hBy.step edge hne) (step x m hBy hP edge hne)
  have hne : e ≠ d := fun hEq => hNot (hEq ▸ w.left_mem)
  exact along w hNot (.entry hEntry hne) (base e hEntry hne)

theorem Live.induct {P : BlockId → Prop} (h : f.Live b) (base : ∀ e, f.entry = some e → P e)
    (step : ∀ a b, f.Live a → P a → b ∈ f.succs a → P b) : P b := by
  obtain ⟨e, hEntry, hReach⟩ := h
  exact hReach.induct (base e hEntry) fun a b ha => step a b ⟨e, hEntry, ha⟩

/-! ## Functions with the same edges -/

theorem live_congr (hSuccs : ∀ a b, b ∈ g.succs a ↔ b ∈ f.succs a) (hEntry : g.entry = f.entry) :
    g.Live b ↔ f.Live b := by
  constructor
  · intro hb
    refine hb.induct (P := f.Live) (fun e he => ⟨e, hEntry ▸ he, .refl e⟩) fun a b _ ha edge => ?_
    exact ha.step ((hSuccs a b).mp edge)
  · intro hb
    refine hb.induct (P := g.Live) (fun e he => ⟨e, hEntry ▸ he, .refl e⟩) fun a b _ ha edge => ?_
    exact ha.step ((hSuccs a b).mpr edge)

theorem guards_congr (hSuccs : ∀ a b, b ∈ g.succs a ↔ b ∈ f.succs a) (hEntry : g.entry = f.entry)
    (hd : f.Guards d b) : g.Guards d b := by
  rw [guards_iff_not_bypasses] at hd ⊢
  refine fun hBy => hd (hBy.induct (P := f.Bypasses d) ?_ ?_)
  · exact fun e he hne => .entry (hEntry ▸ he) hne
  · exact fun a b _ ha edge hne => ha.step ((hSuccs a b).mp edge) hne

/-! ## Looking for a way around -/

instance (f : Func) (b : BlockId) : Decidable (f.Live b) := decidable_of_iff _ mem_reversePostorder

/-- The edges that do not lead to a given block. -/
def flowAround (f : Func) (d : BlockId) : Digraph BlockId where
  next a := (f.succs a).toList.filter (· ≠ d)
  bound := f.flow.bound

theorem mem_next_flowAround : b ∈ (f.flowAround d).next a ↔ b ∈ f.succs a ∧ b ≠ d := by
  simp [flowAround, List.mem_filter]

theorem bypasses_iff :
    f.Bypasses d b ↔ ∃ e ∈ f.entry, e ≠ d ∧ b ∈ (f.flowAround d).reachable e := by
  have hBounded : (f.flowAround d).Bounded := fun a b edge =>
    f.flow_bounded a b (mem_next_flowAround.mp edge).1
  simp only [Digraph.mem_reachable hBounded]
  constructor
  · intro h
    refine h.induct (P := fun b => ∃ e ∈ f.entry, e ≠ d ∧ (f.flowAround d).Reaches e b) ?_ ?_
    · exact fun e hEntry hne => ⟨e, hEntry, hne, .refl e⟩
    · rintro a b - ⟨e, hEntry, hne, ha⟩ edge hbd
      exact ⟨e, hEntry, hne, ha.step (mem_next_flowAround.mpr ⟨edge, hbd⟩)⟩
  · rintro ⟨e, hEntry, hne, hReach⟩
    refine hReach.induct (P := f.Bypasses d) (.entry hEntry hne) fun a b _ ha edge => ?_
    obtain ⟨edge, hbd⟩ := mem_next_flowAround.mp edge
    exact ha.step edge hbd

instance (f : Func) (d b : BlockId) : Decidable (f.Bypasses d b) :=
  decidable_of_iff _ bypasses_iff.symm

instance (f : Func) (d b : BlockId) : Decidable (f.Guards d b) :=
  decidable_of_iff _ guards_iff_not_bypasses.symm

end Func

end Midend
