import Mathlib.Data.Set.Card
import Midend.Proofs.Flow.PostDominance
import Midend.Proofs.Graph.Rounds

/-!
# How many rounds dominance takes

The bound on the rounds in terms of blocks: as many as control can reach for dominance, and one more
than have a way out for post-dominance, where the exit is a node as well.

`rounds_suffice`: every limit from there on gives the same result, and nothing is cut short. Edges
need not be recorded on both sides for that.
-/

namespace Midend

section Counting

variable {α : Type} {l : List α} {s : Set α}

theorem length_le_ncard (hl : l.Nodup) (hs : s.Finite) (h : ∀ x ∈ l, x ∈ s) :
    l.length ≤ s.ncard := by
  classical
  rw [← List.toFinset_card_of_nodup hl, ← Set.ncard_coe_finset]
  refine Set.ncard_le_ncard ?_ hs
  intro x hx
  exact h x (List.mem_toFinset.mp hx)

theorem ncard_le_length (h : ∀ x ∈ s, x ∈ l) : s.ncard ≤ l.length := by
  classical
  have hSub : s ⊆ (l.toFinset : Set α) := fun x hx => List.mem_toFinset.mpr (h x hx)
  have hCard := Set.ncard_le_ncard hSub l.toFinset.finite_toSet
  rw [Set.ncard_coe_finset] at hCard
  exact hCard.trans (List.toFinset_card_le l)

end Counting

namespace Func

variable {f : Func} {b e : BlockId} {path : List BlockId}

/-! ## Dominance -/

theorem finite_live (f : Func) : {b | f.Live b}.Finite := by
  refine f.reversePostorder.finite_toSet.subset fun b hb => ?_
  exact mem_reversePostorder.mpr hb

/-- Walks from the entry stay among the blocks that control can reach. -/
theorem shallow_flowFrom (hEntry : f.entry = some e) :
    (f.flowFrom e).Shallow {b | f.Live b}.ncard := by
  intro a path w hNodup
  refine length_le_ncard hNodup f.finite_live fun x hx => ?_
  obtain ⟨front, back, rfl⟩ := List.append_of_mem hx
  rcases (w.split rfl).1.snoc_cases with ⟨hEq, -⟩ | ⟨_, p, -, edge, -⟩
  · exact hEq ▸ ⟨e, hEntry, .refl e⟩
  · exact mem_reversePostorder.mp (FlowGraph.mem_next_inflow.mp edge).1

/-! ## Post-dominance -/

/-- Only the blocks of the layout have a way out. -/
theorem WayOut.mem_ids (h : f.WayOut b path) : b ∈ f.blocks.map (·.id) := by
  obtain ⟨x, ⟨blk, hBlk, hId, -⟩, w⟩ := h
  cases w with
  | nil => exact List.mem_map.mpr ⟨blk, hBlk, hId⟩
  | cons edge rest =>
    obtain ⟨blk, hBlk, hId, -⟩ := mem_next_links.mp edge
    exact List.mem_map.mpr ⟨blk, hBlk, hId⟩

theorem finite_wayOut (f : Func) : {b | ∃ path, f.WayOut b path}.Finite := by
  refine (f.blocks.map (·.id)).finite_toSet.subset ?_
  rintro b ⟨path, h⟩
  exact h.mem_ids

/-- What control goes on to is the exit, or a block to which an edge leads. -/
theorem mem_onward_cases {t : Terminus} (h : t ∈ f.onward (.block b)) :
    (t = .exit ∧ f.IsExit b) ∨ ∃ c, t = .block c ∧ c ∈ f.links.next b := by
  rw [onward] at h
  split at h
  · exact absurd h List.not_mem_nil
  rename_i blk hLast
  obtain ⟨hBlk, hId⟩ := mem_named.mp (List.mem_of_getLast? hLast)
  split at h
  · rename_i hEmpty
    exact .inl ⟨List.mem_singleton.mp h, blk, hBlk, hId, hEmpty⟩
  · obtain ⟨c, hc, rfl⟩ := List.mem_map.mp h
    exact .inr ⟨c, rfl, mem_next_links.mpr ⟨blk, hBlk, hId, hc⟩⟩

/-- A block that is reached from the exit has a way out. -/
theorem exists_wayOut_of_reaches {t : Terminus} (h : f.flowFromExit.inflow.Reaches .exit t) :
    t = .exit ∨ ∃ b, t = .block b ∧ ∃ path, f.WayOut b path := by
  refine Digraph.Reaches.induct
    (P := fun t => t = .exit ∨ ∃ b, t = .block b ∧ ∃ path, f.WayOut b path) (.inl rfl) ?_ h
  intro s t _ hs edge
  have hOnward : s ∈ f.onward t :=
    (List.mem_filter.mp (FlowGraph.mem_next_inflow.mp edge).2).1
  cases t with
  | exit => exact .inl rfl
  | block b =>
    refine .inr ⟨b, rfl, ?_⟩
    rcases mem_onward_cases hOnward with ⟨-, hExit⟩ | ⟨c, rfl, hLink⟩
    · exact ⟨[b], b, hExit, .nil b⟩
    · rcases hs with hs | ⟨c', hs, path, x, hExit, w⟩
      · cases hs
      · obtain rfl := Terminus.block.inj hs
        exact ⟨b :: path, x, hExit, .cons hLink w⟩

theorem shallow_flowFromExit (f : Func) :
    f.flowFromExit.Shallow ({b | ∃ path, f.WayOut b path}.ncard + 1) := by
  intro t path w hNodup
  -- the exit, and the blocks with a way out
  let visited : Set Terminus := insert .exit (Terminus.block '' {b | ∃ path, f.WayOut b path})
  have hFinite : visited.Finite := (f.finite_wayOut.image _).insert _
  have hVisited : ∀ x ∈ path, x ∈ visited := by
    intro x hx
    obtain ⟨front, back, rfl⟩ := List.append_of_mem hx
    rcases exists_wayOut_of_reaches ⟨_, (w.split rfl).1⟩ with rfl | ⟨b, rfl, hOut⟩
    · exact Set.mem_insert _ _
    · exact Set.mem_insert_of_mem _ (Set.mem_image_of_mem _ hOut)
  calc path.length ≤ visited.ncard := length_le_ncard hNodup hFinite hVisited
    _ ≤ (Terminus.block '' {b | ∃ path, f.WayOut b path}).ncard + 1 := Set.ncard_insert_le _ _
    _ ≤ {b | ∃ path, f.WayOut b path}.ncard + 1 :=
      Nat.add_le_add_right (Set.ncard_image_le f.finite_wayOut) 1

/-! ## Limits -/

/-- **One round for each node is enough.** Dominance converges whenever the limit of rounds is at
least the number of blocks that control can reach, and all such limits give the same dominators,
immediate dominators and frontiers. So does post-dominance if the limit is greater than the number
of blocks from which an exit can be reached. -/
theorem rounds_suffice (f : Func) :
    (∀ e, f.entry = some e → ∃ t, ∀ cap, {b | f.Live b}.ncard ≤ cap →
      f.dominance cap = .ok (.converged t)) ∧
    (f.layout ≠ [] → ∃ t, ∀ cap, {b | ∃ path, f.WayOut b path}.ncard + 1 ≤ cap →
      f.postDominance cap = .ok (.converged t)) := by
  constructor
  · intro e hEntry
    obtain ⟨t, ht⟩ := FlowGraph.exists_dominators_eq (shallow_flowFrom hEntry)
    refine ⟨t, fun cap hCap => ?_⟩
    rw [dominance_eq hEntry, ht cap hCap]
  · intro hBlocks
    obtain ⟨t, ht⟩ := FlowGraph.exists_dominators_eq f.shallow_flowFromExit
    refine ⟨⟨t⟩, fun cap hCap => ?_⟩
    rw [postDominance_eq hBlocks, ht cap hCap]
    rfl

theorem crossing_rounds_suffice :
    (∃ t, ∀ cap, 4 ≤ cap → crossing.dominance cap = .ok (.converged t)) ∧
      ∃ t, ∀ cap, 6 ≤ cap → crossing.postDominance cap = .ok (.converged t) := by
  have hLive : {b | crossing.Live b}.ncard ≤ 4 :=
    (ncard_le_length fun b hb => mem_reversePostorder.mpr hb).trans (by decide +kernel)
  have hOut : {b | ∃ path, crossing.WayOut b path}.ncard ≤ 5 := by
    refine (ncard_le_length (l := crossing.blocks.map (·.id)) ?_).trans (by decide +kernel)
    rintro b ⟨path, h⟩
    exact h.mem_ids
  obtain ⟨hDom, hPost⟩ := rounds_suffice crossing
  obtain ⟨t, ht⟩ := hDom ⟨0⟩ rfl
  obtain ⟨t', ht'⟩ := hPost (by decide +kernel)
  exact ⟨⟨t, fun cap hCap => ht cap (by omega)⟩, t', fun cap hCap => ht' cap (by omega)⟩

end Func

end Midend
