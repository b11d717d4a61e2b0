import Midend.Proofs.Flow.Dominance
import Midend.Proofs.Func.Requests
import Midend.Proofs.Graph.Tree

/-!
# Post-dominance is dominance along the ways out

The reversed flow graph tells blocks by the names that they bear and not by the names under which
they are kept, so the edges are read in the same way here (`links`, `MirroredByName`). Where every
block is kept under its own name there is no difference (`mem_next_links_iff_mem_succs`,
`mirroredByName_iff`).

A walk from the exit through the reversed graph is a way out of the function read from its end
(`walk_reverseFlow_iff`). So what holds of dominance in that graph holds of the ways out, with one
exception: the node from which every exit is reached is no block. It is the immediate dominator of
just those blocks that have a way out and no strict post-dominator.

`postDominance_agrees_with_paths`: the post-dominance that is computed, in terms of the ways out.
-/

namespace Midend

namespace Func

variable {f : Func} {b c d x : BlockId} {blk : Block} {path : List BlockId}

/-! ## Edges between names -/

/-- The flow graph, where a block is told by the name that it bears. -/
def links (f : Func) : Digraph BlockId where
  next b := (f.named b).flatMap (·.succs.toList)
  bound := f.blocks.flatMap (·.succs.toList)

/-- Every edge is recorded on both sides and leads from a block of the layout to another one, where
a block is told by the name that it bears. -/
structure MirroredByName (f : Func) : Prop where
  mirrored : ∀ A ∈ f.blocks, ∀ B ∈ f.blocks, B.id ∈ A.succs ↔ A.id ∈ B.preds
  succ_mem : ∀ A ∈ f.blocks, ∀ c ∈ A.succs, ∃ C ∈ f.blocks, C.id = c
  pred_mem : ∀ B ∈ f.blocks, ∀ a ∈ B.preds, ∃ A ∈ f.blocks, A.id = a

instance (f : Func) : Decidable f.MirroredByName :=
  decidable_of_iff
    ((∀ A ∈ f.blocks, ∀ B ∈ f.blocks, B.id ∈ A.succs ↔ A.id ∈ B.preds) ∧
      (∀ A ∈ f.blocks, ∀ c ∈ A.succs.toList, ∃ C ∈ f.blocks, C.id = c) ∧
      ∀ B ∈ f.blocks, ∀ a ∈ B.preds.toList, ∃ A ∈ f.blocks, A.id = a)
    ⟨fun h => ⟨h.1, h.2.1, h.2.2⟩, fun h => ⟨h.mirrored, h.succ_mem, h.pred_mem⟩⟩

/-- A block that nothing follows. -/
def IsExit (f : Func) (x : BlockId) : Prop :=
  ∃ blk ∈ f.blocks, blk.id = x ∧ blk.succs.isEmpty = true

/-- A path from a block to an exit. -/
def WayOut (f : Func) (b : BlockId) (path : List BlockId) : Prop :=
  ∃ x, f.IsExit x ∧ f.links.Walk b path x

theorem mem_named : blk ∈ f.named b ↔ blk ∈ f.blocks ∧ blk.id = b := by
  rw [named, List.mem_filter, decide_eq_true_iff]

theorem mem_next_links :
    c ∈ f.links.next b ↔ ∃ blk ∈ f.blocks, blk.id = b ∧ c ∈ blk.succs := by
  simp only [links, List.mem_flatMap, mem_named, and_assoc, SortedSet.mem_toList]

section Kept

variable (hNamed : f.Named) (hLayout : ∀ b, f.hasBlock b = true → b ∈ f.layout)

include hNamed hLayout

theorem exists_block?_iff {P : Block → Prop} :
    (∃ blk, f.block? b = some blk ∧ P blk) ↔ ∃ blk ∈ f.blocks, blk.id = b ∧ P blk := by
  constructor
  · rintro ⟨blk, hBlk, hP⟩
    have hListed := hLayout b (hasBlock_iff.mpr ⟨blk, hBlk⟩)
    exact ⟨blk, mem_blocks_iff.mpr ⟨b, hListed, hBlk⟩, hNamed b blk hBlk, hP⟩
  · rintro ⟨blk, hMem, rfl, hP⟩
    obtain ⟨c, -, hBlk⟩ := mem_blocks_iff.mp hMem
    rw [← hNamed c blk hBlk] at hBlk
    exact ⟨blk, hBlk, hP⟩

/-- Where every block is listed and kept under the name that it bears, the edges between names are
the edges. -/
theorem mem_next_links_iff_mem_succs : c ∈ f.links.next b ↔ c ∈ f.succs b := by
  rw [mem_next_links, mem_succs_iff, exists_block?_iff hNamed hLayout]

theorem mirroredByName_iff : f.MirroredByName ↔ f.Mirrored := by
  have hSuccs : ∀ b c, c ∈ f.succs b ↔ ∃ blk ∈ f.blocks, blk.id = b ∧ c ∈ blk.succs := fun b c =>
    mem_succs_iff.trans (exists_block?_iff hNamed hLayout)
  have hPreds : ∀ b c, c ∈ f.preds b ↔ ∃ blk ∈ f.blocks, blk.id = b ∧ c ∈ blk.preds := fun b c =>
    mem_preds_iff.trans (exists_block?_iff hNamed hLayout)
  constructor
  · intro h a b
    rw [hSuccs, hPreds]
    constructor
    · rintro ⟨A, hA, rfl, hb⟩
      obtain ⟨B, hB, rfl⟩ := h.succ_mem A hA b hb
      exact ⟨B, hB, rfl, (h.mirrored A hA B hB).mp hb⟩
    · rintro ⟨B, hB, rfl, ha⟩
      obtain ⟨A, hA, rfl⟩ := h.pred_mem B hB a ha
      exact ⟨A, hA, rfl, (h.mirrored A hA B hB).mpr ha⟩
  · intro h
    -- a name is that of one block, so what a block records is what is recorded under its name
    have hKept : ∀ A ∈ f.blocks, f.block? A.id = some A := by
      intro A hA
      obtain ⟨a, -, hBlk⟩ := mem_blocks_iff.mp hA
      rwa [hNamed a A hBlk]
    have hSuccs' : ∀ A ∈ f.blocks, A.succs = f.succs A.id := by
      intro A hA
      rw [succs, hKept A hA]
      rfl
    have hPreds' : ∀ B ∈ f.blocks, B.preds = f.preds B.id := by
      intro B hB
      rw [preds, hKept B hB]
      rfl
    refine ⟨?_, ?_, ?_⟩
    · intro A hA B hB
      rw [hSuccs' A hA, hPreds' B hB]
      exact h A.id B.id
    · intro A hA c hc
      rw [hSuccs' A hA, h, hPreds] at hc
      obtain ⟨C, hC, hId, -⟩ := hc
      exact ⟨C, hC, hId⟩
    · intro B hB a ha
      rw [hPreds' B hB, ← h, hSuccs] at ha
      obtain ⟨A, hA, hId, -⟩ := ha
      exact ⟨A, hA, hId⟩

end Kept

/-! ## The reversed graph -/

theorem mem_backward_exit {t : Terminus} :
    t ∈ f.backward .exit ↔ ∃ x, t = .block x ∧ f.IsExit x := by
  simp only [backward, List.mem_map, List.mem_filter, IsExit]
  constructor
  · rintro ⟨blk, ⟨hBlk, hEmpty⟩, rfl⟩
    exact ⟨blk.id, rfl, blk, hBlk, rfl, hEmpty⟩
  · rintro ⟨x, rfl, blk, hBlk, rfl, hEmpty⟩
    exact ⟨blk, ⟨hBlk, hEmpty⟩, rfl⟩

theorem reverseFlow_bounded (f : Func) : f.reverseFlow.Bounded := by
  intro s t edge
  cases s with
  | exit =>
    obtain ⟨blk, hBlk, rfl⟩ := List.mem_map.mp edge
    exact List.mem_flatMap.mpr ⟨blk, (List.mem_filter.mp hBlk).1, List.mem_cons_self⟩
  | block b =>
    obtain ⟨blk, hBlk, ht⟩ := List.mem_flatMap.mp edge
    exact List.mem_flatMap.mpr ⟨blk, (mem_named.mp hBlk).1, List.mem_cons_of_mem _ ht⟩

/-- The exit dominates every block, so whether a block is the immediate dominator of another one is
a matter of blocks alone. -/
theorem immediate_reverseFlow_iff : f.reverseFlow.Immediate .exit (.block d) (.block b) ↔
    d ≠ b ∧ f.reverseFlow.Dominates .exit (.block d) (.block b) ∧
      ∀ c, c ≠ b → f.reverseFlow.Dominates .exit (.block c) (.block b) →
        f.reverseFlow.Dominates .exit (.block c) (.block d) := by
  have hInj : ∀ {c : BlockId}, Terminus.block c ≠ .block b ↔ c ≠ b := by simp
  constructor
  · intro h
    exact ⟨hInj.mp h.ne, h.dominates, fun c hc => h.nearest (.block c) (hInj.mpr hc)⟩
  · rintro ⟨hne, hd, hNearest⟩
    refine ⟨hInj.mpr hne, hd, fun t ht => ?_⟩
    cases t with
    | exit => exact fun _ => .root _ _
    | block c => exact hNearest c (hInj.mp ht)

section Mirrored

variable (hf : f.MirroredByName)

include hf

/-- Blocks of one name record the same successors. -/
theorem MirroredByName.succs_eq {A B : Block} (hA : A ∈ f.blocks) (hB : B ∈ f.blocks)
    (hId : A.id = B.id) : A.succs = B.succs := by
  rw [SortedSet.ext_iff]
  intro c
  constructor
  · intro hc
    obtain ⟨C, hC, rfl⟩ := hf.succ_mem A hA c hc
    rw [hf.mirrored B hB C hC, ← hId]
    exact (hf.mirrored A hA C hC).mp hc
  · intro hc
    obtain ⟨C, hC, rfl⟩ := hf.succ_mem B hB c hc
    rw [hf.mirrored A hA C hC, hId]
    exact (hf.mirrored B hB C hC).mp hc

/-- The last of the blocks of a name decides for all of them. -/
theorem mem_onward_iff {t : Terminus} : t ∈ f.onward (.block b) ↔
    ∃ blk ∈ f.blocks, blk.id = b ∧
      t ∈ if blk.succs.isEmpty then [.exit] else blk.succs.toList.map Terminus.block := by
  rw [onward]
  split
  · rename_i hLast
    rw [List.getLast?_eq_none_iff] at hLast
    refine iff_of_false List.not_mem_nil ?_
    rintro ⟨blk, hBlk, hId, -⟩
    have hMem : blk ∈ f.named b := mem_named.mpr ⟨hBlk, hId⟩
    rw [hLast] at hMem
    cases hMem
  · rename_i last hLast
    obtain ⟨hMem, hId⟩ := mem_named.mp (List.mem_of_getLast? hLast)
    constructor
    · exact fun ht => ⟨last, hMem, hId, ht⟩
    · rintro ⟨blk, hBlk, hId', ht⟩
      rwa [hf.succs_eq hMem hBlk (hId.trans hId'.symm)]

theorem exit_mem_onward : .exit ∈ f.onward (.block b) ↔ f.IsExit b := by
  rw [mem_onward_iff hf, IsExit]
  refine exists_congr fun blk => and_congr_right fun _ => and_congr_right fun _ => ?_
  split <;> simp [*]

theorem block_mem_onward : .block c ∈ f.onward (.block b) ↔ c ∈ f.links.next b := by
  rw [mem_onward_iff hf, mem_next_links]
  refine exists_congr fun blk => and_congr_right fun _ => and_congr_right fun _ => ?_
  split
  · rename_i hEmpty
    exact iff_of_false (by simp) (SortedSet.isEmpty_iff.mp hEmpty c)
  · simp

theorem mem_backward_block {t : Terminus} :
    t ∈ f.backward (.block c) ↔ ∃ b, t = .block b ∧ c ∈ f.links.next b := by
  simp only [backward, List.mem_flatMap, List.mem_map, mem_named, mem_next_links]
  constructor
  · rintro ⟨C, ⟨hC, rfl⟩, b, hb, rfl⟩
    obtain ⟨B, hB, rfl⟩ := hf.pred_mem C hC b hb
    exact ⟨B.id, rfl, B, hB, rfl, (hf.mirrored B hB C hC).mpr hb⟩
  · rintro ⟨b, rfl, B, hB, rfl, hc⟩
    obtain ⟨C, hC, rfl⟩ := hf.succ_mem B hB c hc
    exact ⟨C, ⟨hC, rfl⟩, B.id, (hf.mirrored B hB C hC).mp hc, rfl⟩

/-- With edges recorded on both sides, the edges forward are those of the reversed graph. -/
theorem flowFromExit_views : f.flowFromExit.Views f.reverseFlow where
  mem_nodes _ := Digraph.mem_reachable f.reverseFlow_bounded
  mem_preds s t _ := by
    change t ∈ f.onward s ↔ s ∈ f.backward t
    cases s with
    | exit =>
      refine iff_of_false List.not_mem_nil ?_
      cases t with
      | exit => simp [mem_backward_exit]
      | block c => simp [mem_backward_block hf]
    | block b =>
      cases t with
      | exit => simp [exit_mem_onward hf, mem_backward_exit]
      | block c => simp [block_mem_onward hf, mem_backward_block hf]

/-! ## Ways out -/

theorem walk_reverse (w : f.links.Walk b path x) :
    f.reverseFlow.Walk (.block x) (path.reverse.map .block) (.block b) := by
  induction w with
  | nil b => exact .nil _
  | @cons b c x path edge rest ih =>
    rw [List.reverse_cons, List.map_append]
    exact ih.snoc ((mem_backward_block hf).mpr ⟨b, rfl, edge⟩)

theorem exists_walk_of_reverse {s t : Terminus} {nodes : List Terminus}
    (w : f.reverseFlow.Walk s nodes t) (hs : s = .block x) (ht : t = .block b) :
    ∃ path, nodes = path.reverse.map .block ∧ f.links.Walk b path x := by
  induction w generalizing x with
  | nil s =>
    obtain rfl := Terminus.block.inj (ht.symm.trans hs)
    exact ⟨[b], by rw [ht]; rfl, .nil b⟩
  | @cons s m t nodes edge rest ih =>
    subst hs
    -- after a block, only blocks are met
    obtain ⟨c, rfl, hEdge⟩ := (mem_backward_block hf).mp edge
    obtain ⟨path, rfl, w⟩ := ih rfl ht
    exact ⟨path ++ [x], by simp, w.snoc hEdge⟩

/-- A walk from the exit to a block is a way out of the block, read from its end. -/
theorem walk_reverseFlow_iff {nodes : List Terminus} :
    f.reverseFlow.Walk .exit nodes (.block b) ↔
      ∃ path, nodes = .exit :: path.reverse.map .block ∧ f.WayOut b path := by
  constructor
  · intro w
    cases w with
    | cons edge rest =>
      obtain ⟨x, rfl, hExit⟩ := mem_backward_exit.mp edge
      obtain ⟨path, rfl, w⟩ := exists_walk_of_reverse hf rest rfl rfl
      exact ⟨path, rfl, x, hExit, w⟩
  · rintro ⟨path, rfl, x, hExit, w⟩
    exact .cons (mem_backward_exit.mpr ⟨x, rfl, hExit⟩) (walk_reverse hf w)

theorem reaches_reverseFlow_iff :
    f.reverseFlow.Reaches .exit (.block b) ↔ ∃ path, f.WayOut b path := by
  constructor
  · rintro ⟨nodes, w⟩
    obtain ⟨path, -, hOut⟩ := (walk_reverseFlow_iff hf).mp w
    exact ⟨path, hOut⟩
  · rintro ⟨path, hOut⟩
    exact ⟨_, (walk_reverseFlow_iff hf).mpr ⟨path, rfl, hOut⟩⟩

theorem dominates_reverseFlow_iff :
    f.reverseFlow.Dominates .exit (.block d) (.block b) ↔ ∀ path, f.WayOut b path → d ∈ path := by
  constructor
  · intro h path hOut
    simpa using h _ ((walk_reverseFlow_iff hf).mpr ⟨path, rfl, hOut⟩)
  · intro h nodes w
    obtain ⟨path, rfl, hOut⟩ := (walk_reverseFlow_iff hf).mp w
    simpa using h path hOut

end Mirrored

/-! ## What is computed -/

theorem postDominance_eq (hBlocks : f.layout ≠ []) (cap : Nat) :
    f.postDominance cap = .ok ((f.flowFromExit.dominators cap).map .mk) := by
  rw [postDominance, if_neg (by simpa using hBlocks)]

theorem eq_of_postDominance {cap : Nat} {r : Fixpoint PostDominance}
    (hr : f.postDominance cap = .ok r) : r = (f.flowFromExit.dominators cap).map .mk := by
  rw [postDominance] at hr
  split at hr
  · cases hr
  · exact (Except.ok.inj hr).symm

section Computed

variable (hf : f.MirroredByName) {cap : Nat} {r : Fixpoint PostDominance}
  (hr : f.postDominance cap = .ok r)

include hf hr

theorem reachesExit_iff : r.value.reachesExit b = true ↔ ∃ path, f.WayOut b path := by
  have hViews := flowFromExit_views hf
  rw [eq_of_postDominance hr, Fixpoint.value_map, PostDominance.reachesExit, DomTree.isNode,
    (FlowGraph.descending_doms hViews cap).contains_iff, hViews.mem_nodes]
  exact reaches_reverseFlow_iff hf

theorem postDominates_iff_eq_of_no_wayOut (hb : ¬ ∃ path, f.WayOut b path) :
    r.value.postDominates d b = true ↔ d = b := by
  rw [← reaches_reverseFlow_iff hf] at hb
  rw [eq_of_postDominance hr, Fixpoint.value_map, PostDominance.postDominates,
    FlowGraph.dominates_iff_eq_of_not_reaches (flowFromExit_views hf) cap hb, Terminus.block.injEq]

/-- A block that is strictly post-dominated reaches an exit. -/
theorem reaches_of_postDominates (hne : d ≠ b) (hd : r.value.postDominates d b = true) :
    f.reverseFlow.Reaches .exit (.block b) := by
  by_contra hb
  rw [reaches_reverseFlow_iff hf] at hb
  exact hne ((postDominates_iff_eq_of_no_wayOut hf hr hb).mp hd)

variable (hConv : r.isConverged = true)

include hConv

theorem postDominates_iff_dominates (hb : f.reverseFlow.Reaches .exit (.block b)) :
    r.value.postDominates d b = true ↔ f.reverseFlow.Dominates .exit (.block d) (.block b) := by
  have hViews := flowFromExit_views hf
  rw [eq_of_postDominance hr, Fixpoint.isConverged_map] at hConv
  rw [eq_of_postDominance hr, Fixpoint.value_map]
  constructor
  · exact FlowGraph.path_of_dominates hViews hConv
  · exact FlowGraph.dominates_of_path hViews cap hb

theorem idom?_eq_some_iff_immediate {t : Terminus} : r.value.tree.idom? (.block b) = some t ↔
    f.reverseFlow.Reaches .exit (.block b) ∧ f.reverseFlow.Immediate .exit t (.block b) := by
  rw [eq_of_postDominance hr, Fixpoint.isConverged_map] at hConv
  rw [eq_of_postDominance hr, Fixpoint.value_map]
  exact FlowGraph.idom?_eq_some_iff (flowFromExit_views hf) hConv

theorem ipdom?_eq_some_iff : r.value.ipdom? b = some d ↔
    d ≠ b ∧ r.value.postDominates d b = true ∧
      ∀ c, c ≠ b → r.value.postDominates c b = true → r.value.postDominates c d = true := by
  have hIdom : r.value.ipdom? b = some d ↔ r.value.tree.idom? (.block b) = some (.block d) := by
    rw [PostDominance.ipdom?]
    split <;> simp_all
  rw [hIdom, idom?_eq_some_iff_immediate hf hr hConv, immediate_reverseFlow_iff]
  constructor
  · rintro ⟨hReach, hne, hd, hNearest⟩
    have hReach' := hd.reaches hReach
    refine ⟨hne, (postDominates_iff_dominates hf hr hConv hReach).mpr hd, fun c hc hcb => ?_⟩
    rw [postDominates_iff_dominates hf hr hConv hReach] at hcb
    exact (postDominates_iff_dominates hf hr hConv hReach').mpr (hNearest c hc hcb)
  · rintro ⟨hne, hd, hNearest⟩
    have hReach := reaches_of_postDominates hf hr hne hd
    rw [postDominates_iff_dominates hf hr hConv hReach] at hd
    have hReach' := hd.reaches hReach
    refine ⟨hReach, hne, hd, fun c hc hcb => ?_⟩
    rw [← postDominates_iff_dominates hf hr hConv hReach] at hcb
    exact (postDominates_iff_dominates hf hr hConv hReach').mp (hNearest c hc hcb)

theorem ipdom?_eq_none_iff :
    r.value.ipdom? b = none ↔ ∀ d, r.value.postDominates d b = true → d = b := by
  constructor
  · intro hNone d hd
    by_contra hne
    have hReach := reaches_of_postDominates hf hr hne hd
    rw [postDominates_iff_dominates hf hr hConv hReach] at hd
    obtain ⟨t, hImm⟩ := Digraph.exists_immediate hReach (by simp)
    have hIdom := (idom?_eq_some_iff_immediate hf hr hConv).mpr ⟨hReach, hImm⟩
    cases t with
    | exit =>
      -- the exit cannot be the nearest one: no block dominates it
      have hEq := (hImm.nearest (.block d) (by simpa using hne) hd).eq_root
      cases hEq
    | block c => simp [PostDominance.ipdom?, hIdom] at hNone
  · intro hOnly
    cases hSome : r.value.ipdom? b with
    | none => rfl
    | some d =>
      obtain ⟨hne, hd, -⟩ := (ipdom?_eq_some_iff hf hr hConv).mp hSome
      exact absurd (hOnly d hd) hne

end Computed

/-- **Post-dominance is path post-dominance.** Where edges are recorded on both sides,
post-dominance is computed whatever the limit of rounds, and it knows from which blocks an exit can
be reached. If the rounds converge, the post-dominators of such a block are the blocks on every path
from it to an exit, and the immediate one is the strict one that all the others post-dominate, where
there is any. A block from which no exit can be reached is post-dominated by itself alone. -/
theorem postDominance_agrees_with_paths (f : Func) (hMirrored : f.MirroredByName)
    (hBlocks : f.layout ≠ []) (cap : Nat) :
    ∃ r, f.postDominance cap = .ok r ∧
      (∀ b, r.value.reachesExit b = true ↔ ∃ path, f.WayOut b path) ∧
      (∀ d b, (¬ ∃ path, f.WayOut b path) → (r.value.postDominates d b = true ↔ d = b)) ∧
      (r.isConverged = true →
        (∀ d b, (∃ path, f.WayOut b path) →
          (r.value.postDominates d b = true ↔ ∀ path, f.WayOut b path → d ∈ path)) ∧
        (∀ d b, r.value.ipdom? b = some d ↔
          d ≠ b ∧ r.value.postDominates d b = true ∧
            ∀ c, c ≠ b → r.value.postDominates c b = true → r.value.postDominates c d = true) ∧
        ∀ b, r.value.ipdom? b = none ↔ ∀ d, r.value.postDominates d b = true → d = b) := by
  have hr := postDominance_eq hBlocks cap
  refine ⟨_, hr, fun b => reachesExit_iff hMirrored hr,
    fun d b hb => postDominates_iff_eq_of_no_wayOut hMirrored hr hb, fun hConv => ⟨?_, ?_, ?_⟩⟩
  · intro d b hb
    rw [← reaches_reverseFlow_iff hMirrored] at hb
    rw [postDominates_iff_dominates hMirrored hr hConv hb, dominates_reverseFlow_iff hMirrored]
  · exact fun d b => ipdom?_eq_some_iff hMirrored hr hConv
  · exact fun b => ipdom?_eq_none_iff hMirrored hr hConv

/-- Two ways out that part behind a loop, and a loop without a way out. -/
def parting : Func :=
  [.createBlock "entry", .createBlock "loop", .createBlock "after", .createBlock "left",
    .createBlock "right", .createBlock "stuck", .append ⟨0⟩ .bool (.const (.bool true)),
    .append ⟨0⟩ .void (.branch ⟨0⟩ ⟨1⟩ ⟨5⟩), .append ⟨1⟩ .void (.branch ⟨0⟩ ⟨1⟩ ⟨2⟩),
    .append ⟨2⟩ .void (.branch ⟨0⟩ ⟨3⟩ ⟨4⟩), .append ⟨3⟩ .void (.ret none),
    .append ⟨4⟩ .void (.ret none), .append ⟨5⟩ .void (.jump ⟨5⟩)].foldl build
      (.empty "parting" .void)

theorem parting_postDominance_agrees : parting.MirroredByName ∧ parting.layout ≠ [] ∧
    ∃ r, parting.postDominance 4 = .ok r ∧ r.isConverged = true ∧
      (∀ b, r.value.reachesExit b = true ↔ ∃ path, parting.WayOut b path) ∧
      (∀ d b, (¬ ∃ path, parting.WayOut b path) → (r.value.postDominates d b = true ↔ d = b)) ∧
      (∀ d b, (∃ path, parting.WayOut b path) →
        (r.value.postDominates d b = true ↔ ∀ path, parting.WayOut b path → d ∈ path)) ∧
      (∀ d b, r.value.ipdom? b = some d ↔
        d ≠ b ∧ r.value.postDominates d b = true ∧
          ∀ c, c ≠ b → r.value.postDominates c b = true → r.value.postDominates c d = true) ∧
      ∀ b, r.value.ipdom? b = none ↔ ∀ d, r.value.postDominates d b = true → d = b := by
  have hMirrored : parting.MirroredByName := by decide +kernel
  have hBlocks : parting.layout ≠ [] := by decide +kernel
  have hRounds : (parting.postDominance 4).toOption.any (·.isConverged) = true := by decide +kernel
  obtain ⟨r, hEq, hExit, hStuck, hAgrees⟩ :=
    postDominance_agrees_with_paths parting hMirrored hBlocks 4
  rw [hEq] at hRounds
  have hConv : r.isConverged = true := hRounds
  exact ⟨hMirrored, hBlocks, r, hEq, hConv, hExit, hStuck, hAgrees hConv⟩

end Func

end Midend
