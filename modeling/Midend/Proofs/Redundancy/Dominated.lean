import Midend.Proofs.Flow.Bypass
import Midend.Proofs.Redundancy.Elimination

/-!
# Elimination by dominance

A function stays lawful when its dominated redundancies are eliminated, however far the sets of
dominators had shrunk when they were used (`Lawful.eliminateDominated`): a redundant value has the
type and the flag of the earlier one.

Whether every value is still computed before it is read is another matter. It is if and only if the
block of what stands in the place of a value is on every way to what read that value
(`Regular.scoped_eliminateDominated_iff`). That is so if the sets of dominators are right
(`Regular.eliminateDominated`).
-/

namespace Midend

theorem Inst.not_isPhi_of_isFormula {i : Inst} (h : i.op.isFormula = true) : i.isPhi = false := by
  rcases i with ⟨id, ty, known, op⟩
  cases op <;> first | rfl | cases h

theorem Inst.not_isTerminator_of_isFormula {i : Inst} (h : i.op.isFormula = true) :
    i.isTerminator = false := by
  rcases i with ⟨id, ty, known, op⟩
  cases op <;> first | rfl | cases h

namespace Func

variable {f g : Func} {b c d x : BlockId} {i j : Inst} {v w : ValueId} {order : List BlockId}

/-! ## The order of the scan -/

theorem located_cons (hf : f.Named) :
    f.located (b :: order) = (f.code b).map (b, ·) ++ f.located order := by
  rw [located, located, List.filterMap_cons]
  cases hBlk : f.block? b with
  | none =>
    rw [code, hBlk]
    rfl
  | some blk =>
    rw [List.flatMap_cons, Block.located, code_of_block? hBlk, hf b blk hBlk]

theorem mem_located (hf : f.Named) : (b, i) ∈ f.located order ↔ b ∈ order ∧ i ∈ f.code b := by
  induction order with
  | nil => simp [located]
  | cons a order ih =>
    rw [located_cons hf, List.mem_append, ih, List.mem_cons]
    simp only [List.mem_map, Prod.mk.injEq]
    constructor
    · rintro (⟨j, hj, rfl, rfl⟩ | ⟨hb, hi⟩)
      · exact ⟨.inl rfl, hj⟩
      · exact ⟨.inr hb, hi⟩
    · rintro ⟨rfl | hb, hi⟩
      · exact .inl ⟨i, hi, rfl, rfl⟩
      · exact .inr ⟨hb, hi⟩

/-- What comes before an instruction in the scan comes in a block before its own, or before it
there. -/
theorem located_eq_append (hf : f.Named) {front back : List (BlockId × Inst)}
    (h : f.located order = front ++ (b, i) :: back) :
    ∃ before after earlier later, order = before ++ b :: after ∧ f.code b = earlier ++ i :: later ∧
      front = f.located before ++ earlier.map (b, ·) := by
  induction order generalizing front with
  | nil => exact absurd h (by simp [located])
  | cons a order ih =>
    rw [located_cons hf] at h
    rcases append_eq_append_cons h with ⟨rest, hCode, -⟩ | ⟨rest, rfl, hOrder⟩
    · obtain ⟨earlier, l, hSplit, rfl, hl⟩ := List.map_eq_append_iff.mp hCode
      obtain ⟨j, later, rfl, hj, -⟩ := List.map_eq_cons_iff.mp hl
      obtain ⟨rfl, rfl⟩ := Prod.mk.inj hj
      exact ⟨[], order, earlier, later, rfl, hSplit, by simp [located]⟩
    · obtain ⟨before, after, earlier, later, rfl, hCode, rfl⟩ := ih hOrder
      refine ⟨a :: before, after, earlier, later, rfl, hCode, ?_⟩
      rw [located_cons hf, List.append_assoc]

theorem nodup_located (hf : f.Distinct) (hOrder : order.Nodup) :
    ((f.located order).map (·.2.id)).Nodup := by
  induction order with
  | nil => simp [located]
  | cons a order ih =>
    obtain ⟨ha, hOrder⟩ := List.nodup_cons.mp hOrder
    rw [located_cons hf.named, List.map_append, List.nodup_append, List.map_map]
    refine ⟨hf.nodup a, ih hOrder, ?_⟩
    intro v hv w hw hEq
    obtain ⟨i, hi, rfl⟩ := List.mem_map.mp hv
    obtain ⟨⟨c, j⟩, hj, rfl⟩ := List.mem_map.mp hw
    obtain ⟨hc, hj⟩ := (mem_located hf.named).mp hj
    exact ha (hf.inj a c i hi j hj hEq ▸ hc)

/-! ## Reports -/

/-- A report as it is found in a function: both instructions, their blocks, and their order. -/
structure Repeats (f : Func) (dom : Dominance) (E : ValueId → ValueId → Prop) (r : Redundancy)
    (b c : BlockId) (i j : Inst) : Prop where
  mem : i ∈ f.code b
  mem_earlier : j ∈ f.code c
  id_eq : i.id = r.value
  earlier_eq : j.id = r.earlier
  live : f.Live b
  dominates : dom.dominates c b = true
  ty_eq : i.ty = j.ty
  same : i.op.Matches E j.op
  comes_first : c = b → ∃ front back, f.code b = front ++ i :: back ∧ j ∈ front
  not_guarded : f.Guards b c → b = c

section Reports

variable {dom : Dominance} {E : ValueId → ValueId → Prop} {r : Redundancy}

theorem exists_repeats (hf : f.Distinct) (hNodes : dom.nodes = f.reversePostorder)
    (hE : Congruence (fun i => ∃ b, i ∈ f.code b) E) (hr : r ∈ f.dominatedRedundancies dom) :
    ∃ b c i j, f.Repeats dom E r b c i j := by
  rw [dominatedRedundancies, hNodes] at hr
  have hAll : ∀ x ∈ f.located f.reversePostorder, ∃ b, x.2 ∈ f.code b := fun x hx =>
    ⟨x.1, ((mem_located hf.named).mp hx).2⟩
  obtain ⟨front, b, i, back, c, j, hScan, hj, hId, hEarlier, hDom, hTy, hMatch⟩ :=
    Numbering.scan_justified hE hAll hr
  obtain ⟨before, after, earlier, later, hOrder, hCode, rfl⟩ := located_eq_append hf.named hScan
  have hPlace : c ∈ before ∧ j ∈ f.code c ∨ c = b ∧ j ∈ earlier := by
    rw [List.mem_append, mem_located hf.named] at hj
    refine hj.imp_right fun hj => ?_
    obtain ⟨j', hj', hEq⟩ := List.mem_map.mp hj
    obtain ⟨rfl, rfl⟩ := Prod.mk.inj hEq
    exact ⟨rfl, hj'⟩
  have hNodup : (before ++ b :: after).Nodup := hOrder ▸ nodup_reversePostorder f
  have hApart : b ∉ before := fun hb =>
    (List.nodup_append.mp hNodup).2.2 b hb b List.mem_cons_self rfl
  refine ⟨b, c, i, j, by simp [hCode], ?_, hId, hEarlier, ?_, hDom, hTy, hMatch, ?_, ?_⟩
  · rcases hPlace with ⟨-, hMem⟩ | ⟨rfl, hMem⟩
    · exact hMem
    · rw [hCode]
      exact List.mem_append_left _ hMem
  · exact mem_reversePostorder.mp (hOrder ▸ by simp)
  · rintro rfl
    exact ⟨earlier, later, hCode, (hPlace.resolve_left fun h => hApart h.1).2⟩
  · -- a block that guards another comes first in the scan
    intro hGuards
    by_contra hne
    rcases hPlace with ⟨hc, -⟩ | ⟨rfl, -⟩
    · obtain ⟨front', back', rfl⟩ := List.append_of_mem hc
      rw [List.append_assoc, List.cons_append] at hOrder
      exact hApart (List.mem_append_left _ (guard_before hOrder hne hGuards))
    · exact hne rfl

theorem nodup_values (hf : f.Distinct) (hNodes : dom.nodes = f.reversePostorder) :
    ((f.dominatedRedundancies dom).map (·.value)).Nodup := by
  rw [dominatedRedundancies, hNodes]
  exact (Numbering.values_sublist _ _).nodup (nodup_located hf (nodup_reversePostorder f))

theorem isGone_earlier (hf : f.Distinct) (hNodes : dom.nodes = f.reversePostorder)
    (hr : r ∈ f.dominatedRedundancies dom) :
    Redundancy.isGone (f.dominatedRedundancies dom) r.earlier = false := by
  rw [Redundancy.isGone_eq_false_iff]
  rw [dominatedRedundancies, hNodes] at hr ⊢
  exact Numbering.earlier_not_reported (nodup_located hf (nodup_reversePostorder f)) hr

/-- Any two values are related. -/
theorem congruence_true (P : Inst → Prop) : Congruence P fun _ _ => True :=
  ⟨fun _ => trivial, fun _ _ _ => trivial, fun _ _ _ _ _ => trivial, fun _ _ _ _ _ _ => trivial⟩

theorem eliminateDominated_spared (hf : f.Distinct) (hNodes : dom.nodes = f.reversePostorder) :
    Spared f (Redundancy.isGone (f.dominatedRedundancies dom))
      (Redundancy.rename (f.dominatedRedundancies dom)) (f.eliminateDominated dom).2 := by
  refine eliminate_spared hf (nodup_values hf hNodes) (fun r hr => ?_) fun r hr =>
    isGone_earlier hf hNodes hr
  obtain ⟨b, c, i, j, h⟩ := exists_repeats hf hNodes (congruence_true _) hr
  exact ⟨b, i, h.mem, h.id_eq, Inst.not_isTerminator_of_isFormula h.same.isFormula.1⟩

end Reports

/-! ## Types and flags -/

theorem Listed.holds_iff (hf : f.Listed) (hi : i ∈ f.code b) (hTerm : i.isTerminator = false)
    {ty : Ty} {known : Bool} : f.Holds i.id ty known ↔ i.ty = ty ∧ i.comptime = known := by
  constructor
  · rintro ⟨c, j, hj, -, hId, rfl, rfl⟩
    obtain ⟨-, rfl⟩ := hf.eq_of_id_eq hi hj hId.symm
    exact ⟨rfl, rfl⟩
  · rintro ⟨rfl, rfl⟩
    exact ⟨b, i, hi, hTerm, rfl, rfl, rfl⟩

/-- Matching instructions are known at compile time alike if their operands are. -/
theorem comptime_eq_of_matches {known : ValueId → Prop} {E : ValueId → ValueId → Prop}
    (hE : ∀ v w, E v w → (known v ↔ known w)) (hi : i.FlagAgrees known) (hj : j.FlagAgrees known)
    (h : i.op.Matches E j.op) : i.comptime = j.comptime := by
  rcases i with ⟨id, ty, ki, p⟩
  rcases j with ⟨id', ty', kj, q⟩
  simp only at h
  cases h with
  | const c => exact Eq.trans hi (Eq.symm hj)
  | binary o lhs rhs =>
    simp only [Inst.FlagAgrees, Op.operands, List.forall_mem_cons] at hi hj
    rw [Bool.eq_iff_iff]
    exact hi.trans ((and_congr (hE _ _ lhs) (and_congr_left' (hE _ _ rhs))).trans hj.symm)
  | unary o operand =>
    simp only [Inst.FlagAgrees, Op.operands, List.forall_mem_cons] at hi hj
    rw [Bool.eq_iff_iff]
    exact hi.trans ((and_congr_left' (hE _ _ operand)).trans hj.symm)
  | convert operand =>
    simp only [Inst.FlagAgrees, Op.operands, List.forall_mem_cons] at hi hj
    rw [Bool.eq_iff_iff]
    exact hi.trans ((and_congr_left' (hE _ _ operand)).trans hj.symm)

/-- Having the same type and the same flag is a congruence. -/
theorem Listed.congruence_holds (hf : f.Listed) : Congruence (fun i => ∃ b, i ∈ f.code b)
    fun v w => ∀ ty known, f.Holds v ty known ↔ f.Holds w ty known where
  refl _ _ _ := Iff.rfl
  symm _ _ h ty known := (h ty known).symm
  trans _ _ _ h h' ty known := (h ty known).trans (h' ty known)
  congr i j := by
    rintro ⟨b, hi⟩ ⟨c, hj⟩ hTy hMatch ty known
    have hFlag : i.comptime = j.comptime :=
      comptime_eq_of_matches (fun v w h => exists_congr fun ty => h ty true) (hf.reads b i hi).flag
        (hf.reads c j hj).flag hMatch
    rw [hf.holds_iff hi (Inst.not_isTerminator_of_isFormula hMatch.isFormula.1),
      hf.holds_iff hj (Inst.not_isTerminator_of_isFormula hMatch.isFormula.2), hTy, hFlag]

/-! ## Lawful functions -/

namespace Spared

variable {gone : ValueId → Bool} {ren : ValueId → ValueId}

theorem holds_iff (hfg : Spared f gone ren g) (hw : gone w = false) {ty : Ty} {known : Bool} :
    g.Holds w ty known ↔ f.Holds w ty known := by
  constructor
  · refine fun hHeld => hHeld.of_like fun b i hi _ _ => ?_
    obtain ⟨j, hj, -, rfl⟩ := hfg.mem_code.mp hi
    exact ⟨b, j, hj, (Inst.like_mapOperands ren j).symm⟩
  · exact fun hHeld => hHeld.of_like fun b i hi _ hId =>
      ⟨b, _, hfg.mem_code.mpr ⟨i, hi, hId ▸ hw, rfl⟩, Inst.like_mapOperands ren i⟩

theorem computes_iff (hfg : Spared f gone ren g) (hw : gone w = false) :
    g.Computes b w ↔ f.Computes b w := by
  constructor
  · refine fun hComp => hComp.of_like fun i hi _ _ => ?_
    obtain ⟨j, hj, -, rfl⟩ := hfg.mem_code.mp hi
    exact ⟨j, hj, (Inst.like_mapOperands ren j).symm⟩
  · exact fun hComp => hComp.of_like fun i hi _ hId =>
      ⟨_, hfg.mem_code.mpr ⟨i, hi, hId ▸ hw, rfl⟩, Inst.like_mapOperands ren i⟩

theorem live_iff (hfg : Spared f gone ren g) : g.Live b ↔ f.Live b :=
  live_congr (fun a b => by rw [hfg.succs_eq]) hfg.entry_eq

theorem guards_iff (hfg : Spared f gone ren g) : g.Guards d b ↔ f.Guards d b :=
  ⟨guards_congr (fun a b => by rw [hfg.succs_eq]) hfg.entry_eq.symm,
    guards_congr (fun a b => by rw [hfg.succs_eq]) hfg.entry_eq⟩

theorem lawful (hfg : Spared f gone ren g) (hf : f.Lawful)
    (hGone : ∀ b, ∀ i ∈ f.code b, gone i.id = true → i.isTerminator = false)
    (hRen : ∀ v, gone (ren v) = false)
    (hHolds : ∀ v ty known, f.Holds v ty known ↔ f.Holds (ren v) ty known) : g.Lawful where
  toFramed := hfg.frame.framed hf.toFramed
  value_lt b i hi := by
    obtain ⟨j, hj, -, rfl⟩ := hfg.mem_code.mp hi
    rw [hfg.ids_eq]
    exact hf.value_lt b j hj
  nodup := (hfg.distinct hf.distinct).nodup
  inj := (hfg.distinct hf.distinct).inj
  ordered b := by
    rw [hfg.code_eq]
    exact Inst.pairwise_precedes_map (fun i => (Inst.like_mapOperands ren i).isPhi_eq)
      (fun i => (Inst.like_mapOperands ren i).isTerminator_eq) ((hf.ordered b).filter _)
  mem_succs a b := by
    rw [hfg.succs_eq, hf.mem_succs]
    constructor
    · rintro ⟨i, hi, hb⟩
      have hStays : gone i.id = false := by
        by_contra h
        have hTerm := hGone a i hi (Bool.of_not_eq_false h)
        rw [isTerminator_of_mem_targets hb] at hTerm
        cases hTerm
      exact ⟨_, hfg.mem_code.mpr ⟨i, hi, hStays, rfl⟩,
        (Inst.like_mapOperands ren i).targets_eq ▸ hb⟩
    · rintro ⟨i, hi, hb⟩
      obtain ⟨j, hj, -, rfl⟩ := hfg.mem_code.mp hi
      exact ⟨j, hj, (Inst.like_mapOperands ren j).targets_eq ▸ hb⟩
  reads b i hi := by
    obtain ⟨j, hj, -, rfl⟩ := hfg.mem_code.mp hi
    exact (hf.reads b j hj).mapOperands fun v _ ty known =>
      (hHolds v ty known).trans (hfg.holds_iff (hRen v)).symm
  pairs b i hi := by
    obtain ⟨j, hj, -, rfl⟩ := hfg.mem_code.mp hi
    exact ((hf.pairs b j hj).mapOperands ren).congr fun a => by rw [hfg.succs_eq]
  entry_first e he a := by
    rw [hfg.succs_eq]
    exact hf.entry_first e (hfg.entry_eq ▸ he) a

end Spared

section Lawful

variable {dom : Dominance}

open Redundancy in
theorem isFormula_of_isGone (hf : f.Distinct) (hNodes : dom.nodes = f.reversePostorder)
    (hi : i ∈ f.code b) (h : isGone (f.dominatedRedundancies dom) i.id = true) :
    i.op.isFormula = true := by
  obtain ⟨r, hr, hId⟩ := isGone_iff.mp h
  obtain ⟨b', c, i', j, hRep⟩ := exists_repeats hf hNodes (congruence_true _) hr
  have hSame : i'.id = i.id := hRep.id_eq.trans hId
  obtain rfl := hf.inj b' b i' hRep.mem i hi hSame
  obtain rfl := List.inj_on_of_nodup_map (hf.nodup b') hRep.mem hi hSame
  exact hRep.same.isFormula.1

open Redundancy in
theorem not_isGone_rename_dominated (hf : f.Distinct) (hNodes : dom.nodes = f.reversePostorder)
    (v : ValueId) : isGone (f.dominatedRedundancies dom)
      (rename (f.dominatedRedundancies dom) v) = false :=
  not_isGone_rename (fun _ hr => isGone_earlier hf hNodes hr) v

/-- What stands in the place of a value is related to it by every congruence. -/
theorem related_rename (hf : f.Distinct) {E : ValueId → ValueId → Prop}
    (hE : Congruence (fun i => ∃ b, i ∈ f.code b) E) (v : ValueId) :
    E v (Redundancy.rename (f.dominatedRedundancies dom) v) :=
  Numbering.related_rename hE (fun x hx => ⟨x.1, ((mem_located hf.named).mp hx).2⟩) v

/-- Whatever sets of dominators are used, a lawful function stays lawful. -/
theorem Lawful.eliminateDominated (hf : f.Lawful) (hNodes : dom.nodes = f.reversePostorder) :
    (f.eliminateDominated dom).2.Lawful :=
  (eliminateDominated_spared hf.distinct hNodes).lawful hf
    (fun _ _ hi h => Inst.not_isTerminator_of_isFormula (isFormula_of_isGone hf.distinct hNodes hi h))
    (not_isGone_rename_dominated hf.distinct hNodes)
    (related_rename hf.distinct hf.congruence_holds)

end Lawful

/-! ## Values that are computed before they are read -/

/-- The block of what stands in the place of a value is on every way to what reads the value and
stays. -/
structure ReplacementsReach (f : Func) (l : List Redundancy) : Prop where
  operand : ∀ b, f.Live b → ∀ i ∈ f.code b, i.isPhi = false → (∀ r ∈ l, r.value ≠ i.id) →
    ∀ r ∈ l, r.value ∈ i.op.operands → ∃ c, f.DefinedIn r.earlier c ∧ f.Guards c b
  incoming : ∀ b, f.Live b → ∀ i ∈ f.code b, ∀ incoming, i.op = .phi incoming → ∀ p ∈ incoming,
    f.Live p.block → ∀ r ∈ l, r.value = p.value → ∃ c, f.DefinedIn r.earlier c ∧ f.Guards c p.block

theorem Spared.ready_iff {gone : ValueId → Bool} {ren : ValueId → ValueId} {l : List Inst}
    (hfg : Spared f gone ren g) (hw : gone w = false) :
    g.Ready b (spare gone ren l) w ↔ f.Ready b l w := by
  refine or_congr ?_ (exists_congr fun d => and_congr_right' (and_congr hfg.guards_iff
    (hfg.computes_iff hw)))
  constructor
  · rintro ⟨i, hi, hId⟩
    obtain ⟨j, hj, -, rfl⟩ := mem_spare.mp hi
    exact ⟨j, hj, hId⟩
  · rintro ⟨i, hi, hId⟩
    exact ⟨_, mem_spare.mpr ⟨i, hi, hId ▸ hw, rfl⟩, hId⟩

theorem Spared.arrives_iff {gone : ValueId → Bool} {ren : ValueId → ValueId}
    (hfg : Spared f gone ren g) (hw : gone w = false) : g.Arrives b w ↔ f.Arrives b w :=
  exists_congr fun _ => and_congr hfg.guards_iff (hfg.computes_iff hw)

/-- What is left is scoped if what is read there under new names is computed before. -/
theorem Spared.scoped_iff {gone : ValueId → Bool} {ren : ValueId → ValueId}
    (hfg : Spared f gone ren g) (hPhi : ∀ b, ∀ i ∈ f.code b, i.isPhi = true → gone i.id = false)
    (hRen : ∀ v, gone (ren v) = false) : g.Scoped ↔
      (∀ b, f.Live b → ∀ earlier i later, f.code b = earlier ++ i :: later → i.isPhi = false →
        gone i.id = false → ∀ v ∈ i.op.operands, f.Ready b earlier (ren v)) ∧
      ∀ b, f.Live b → ∀ i ∈ f.code b, ∀ incoming, i.op = .phi incoming → ∀ p ∈ incoming,
        f.Live p.block → f.Arrives p.block (ren p.value) := by
  constructor
  · intro hg
    constructor
    · intro b hb earlier i later hCode hPhi hStays v hv
      have hCode' : g.code b = spare gone ren earlier ++ i.mapOperands ren :: spare gone ren later := by
        rw [hfg.code_eq, hCode]
        simp [spare, hStays]
      refine (hfg.ready_iff (hRen v)).mp (hg.operand b (hfg.live_iff.mpr hb) _ _ _ hCode' ?_ _ ?_)
      · rwa [(Inst.like_mapOperands ren i).isPhi_eq]
      · rw [Inst.mapOperands, Op.operands_mapOperands]
        exact List.mem_map_of_mem hv
    · intro b hb i hi incoming hOp p hp hLive
      have hi' := hfg.mem_code.mpr ⟨i, hi, hPhi b i hi (by rw [Inst.isPhi, hOp]; rfl), rfl⟩
      refine (hfg.arrives_iff (hRen p.value)).mp (hg.incoming b (hfg.live_iff.mpr hb) _ hi'
        (incoming.map fun p => { p with value := ren p.value }) ?_ _ (List.mem_map_of_mem hp)
        (hfg.live_iff.mpr hLive))
      simp [Inst.mapOperands, hOp, Op.mapOperands]
  · rintro ⟨hOperand, hIncoming⟩
    constructor
    · intro b hb earlier' i' later' hCode hPhi v' hv'
      rw [hfg.code_eq] at hCode
      obtain ⟨earlier, i, later, hSplit, hStays, rfl, rfl⟩ := exists_of_spare_eq hCode
      rw [Inst.mapOperands, Op.operands_mapOperands] at hv'
      obtain ⟨v, hv, rfl⟩ := List.mem_map.mp hv'
      rw [(Inst.like_mapOperands ren i).isPhi_eq] at hPhi
      exact (hfg.ready_iff (hRen v)).mpr
        (hOperand b (hfg.live_iff.mp hb) earlier i later hSplit hPhi hStays v hv)
    · intro b hb i' hi' incoming' hOp' p' hp' hLive
      obtain ⟨i, hi, -, rfl⟩ := hfg.mem_code.mp hi'
      cases hOp : i.op with
      | phi incoming =>
        rw [Inst.mapOperands, hOp] at hOp'
        obtain rfl := Op.phi.inj hOp'
        obtain ⟨p, hp, rfl⟩ := List.mem_map.mp hp'
        exact (hfg.arrives_iff (hRen p.value)).mpr
          (hIncoming b (hfg.live_iff.mp hb) i hi incoming hOp p hp (hfg.live_iff.mp hLive))
      | _ =>
        rw [Inst.mapOperands, hOp] at hOp'
        cases hOp'

/-- An instruction stands in one place of its block. -/
theorem Distinct.front_eq (hf : f.Distinct) {front back front' back' : List Inst}
    (h : f.code b = front ++ i :: back) (h' : f.code b = front' ++ i :: back') : front = front' := by
  have hNodup := (hf.nodup b).of_map
  rw [h] at hNodup
  obtain ⟨-, hBack, hApart⟩ := List.nodup_append.mp hNodup
  have hFront : i ∉ front := fun hi => hApart i hi i List.mem_cons_self rfl
  exact ((List.append_cons_inj_of_notMem hFront (List.nodup_cons.mp hBack).1).mp (h.symm.trans h')).1

section Scoped

variable {dom : Dominance} {E : ValueId → ValueId → Prop} {r : Redundancy} {earlier later : List Inst}

theorem Repeats.computes (h : f.Repeats dom E r b c i j) : f.Computes c r.earlier :=
  ⟨j, h.mem_earlier, Inst.not_isTerminator_of_isFormula h.same.isFormula.2, h.earlier_eq⟩

theorem Repeats.block_eq (h : f.Repeats dom E r b c i j) (hf : f.Listed) (hd : f.Computes d r.value) :
    d = b := by
  obtain ⟨i', hi', -, hId⟩ := hd
  exact (hf.eq_of_id_eq hi' h.mem (hId.trans h.id_eq.symm)).1

/-- Where a redundant value has been computed, so has the earlier one if its block is on every way.
-/
theorem Repeats.ready (h : f.Repeats dom E r b c i j) (hf : f.Lawful) (hc : f.Guards c x)
    (hCode : f.code x = earlier ++ later) (hv : f.Ready x earlier r.value) :
    f.Ready x earlier r.earlier := by
  by_cases hne : c = x
  swap
  · exact .inr ⟨c, hne, hc, h.computes⟩
  subst hne
  rcases hv with ⟨i', hi', hId⟩ | ⟨d, hdc, hd, hComp⟩
  · have hi'' : i' ∈ f.code c := by
      rw [hCode]
      exact List.mem_append_left _ hi'
    obtain ⟨rfl, rfl⟩ := hf.eq_of_id_eq hi'' h.mem (hId.trans h.id_eq.symm)
    obtain ⟨front, back, hCode', hj⟩ := h.comes_first rfl
    obtain ⟨e₁, e₂, rfl⟩ := List.append_of_mem hi'
    rw [List.append_assoc, List.cons_append] at hCode
    obtain rfl := hf.distinct.front_eq hCode hCode'
    exact .inl ⟨j, List.mem_append_left _ hj, h.earlier_eq⟩
  · obtain rfl := h.block_eq hf.toListed hComp
    exact absurd (h.not_guarded hd) hdc

/-- The earlier value is held by one block. -/
theorem Repeats.guards (h : f.Repeats dom E r b c i j) (hf : f.Listed)
    (hd : ∃ d, f.DefinedIn r.earlier d ∧ f.Guards d x) : f.Guards c x := by
  obtain ⟨d, hDef, hd⟩ := hd
  obtain ⟨j', hj', hId⟩ := definedIn_iff.mp hDef
  obtain ⟨rfl, -⟩ := hf.eq_of_id_eq hj' h.mem_earlier (hId.trans h.earlier_eq.symm)
  exact hd

theorem guards_of_ready (hCode : f.code b = earlier ++ later) (hv : f.Ready b earlier v) :
    ∃ d, f.DefinedIn v d ∧ f.Guards d b := by
  rcases hv with ⟨i, hi, hId⟩ | ⟨d, -, hd, i, hi, -, hId⟩
  · refine ⟨b, definedIn_iff.mpr ⟨i, ?_, hId⟩, .refl f b⟩
    rw [hCode]
    exact List.mem_append_left _ hi
  · exact ⟨d, definedIn_iff.mpr ⟨i, hi, hId⟩, hd⟩

/-- After elimination every value is computed before it is read if and only if the replacements
reach everything that read what they replace. -/
theorem Regular.scoped_eliminateDominated_iff (hf : f.Regular)
    (hNodes : dom.nodes = f.reversePostorder) :
    (f.eliminateDominated dom).2.Scoped ↔ f.ReplacementsReach (f.dominatedRedundancies dom) := by
  have hDist := hf.distinct
  have hValues := nodup_values hDist hNodes
  rw [(eliminateDominated_spared hDist hNodes).scoped_iff ?_ (not_isGone_rename_dominated hDist hNodes)]
  constructor
  · rintro ⟨hOperand, hIncoming⟩
    constructor
    · intro b hb i hi hPhi hStays r hr hv
      obtain ⟨earlier, later, hCode⟩ := List.append_of_mem hi
      have hReady := hOperand b hb earlier i later hCode hPhi
        (Redundancy.isGone_eq_false_iff.mpr hStays) _ hv
      rw [Redundancy.rename_of_mem hValues hr] at hReady
      exact guards_of_ready hCode hReady
    · intro b hb i hi incoming hOp p hp hLive r hr hv
      obtain ⟨d, hd, j, hj, -, hId⟩ := hIncoming b hb i hi incoming hOp p hp hLive
      rw [← hv, Redundancy.rename_of_mem hValues hr] at hId
      exact ⟨d, definedIn_iff.mpr ⟨j, hj, hId⟩, hd⟩
  · intro h
    constructor
    · intro b hb earlier i later hCode hPhi hStays v hv
      have hReady := hf.operand b hb earlier i later hCode hPhi v hv
      cases hGone : Redundancy.isGone (f.dominatedRedundancies dom) v with
      | false => rwa [Redundancy.rename_of_not_isGone hGone]
      | true =>
        obtain ⟨r, hr, rfl, hEq⟩ := Redundancy.exists_rename_eq hGone
        obtain ⟨b', c, i', j, hRep⟩ := exists_repeats hDist hNodes (congruence_true _) hr
        have hReach := h.operand b hb i (by simp [hCode]) hPhi
          (Redundancy.isGone_eq_false_iff.mp hStays) r hr hv
        rw [hEq]
        exact hRep.ready hf.toLawful (hRep.guards hf.toListed hReach) hCode hReady
    · intro b hb i hi incoming hOp p hp hLive
      cases hGone : Redundancy.isGone (f.dominatedRedundancies dom) p.value with
      | false =>
        rw [Redundancy.rename_of_not_isGone hGone]
        exact hf.incoming b hb i hi incoming hOp p hp hLive
      | true =>
        obtain ⟨r, hr, hv, hEq⟩ := Redundancy.exists_rename_eq hGone
        obtain ⟨b', c, i', j, hRep⟩ := exists_repeats hDist hNodes (congruence_true _) hr
        have hReach := h.incoming b hb i hi incoming hOp p hp hLive r hr hv
        rw [hEq]
        exact ⟨c, hRep.guards hf.toListed hReach, hRep.computes⟩
  · intro b i hi hPhi
    by_contra hGone
    have hForm := isFormula_of_isGone hDist hNodes hi (Bool.of_not_eq_false hGone)
    rw [Inst.not_isPhi_of_isFormula hForm] at hPhi
    cases hPhi

theorem Repeats.reaches (h : f.Repeats dom E r b c i j) (hf : f.Listed) (hc : f.Guards c b)
    (hd : ∃ d, f.DefinedIn r.value d ∧ f.Guards d x) : ∃ d, f.DefinedIn r.earlier d ∧ f.Guards d x := by
  obtain ⟨d, hDef, hd⟩ := hd
  obtain ⟨i', hi', hId⟩ := definedIn_iff.mp hDef
  obtain ⟨rfl, -⟩ := hf.eq_of_id_eq hi' h.mem (hId.trans h.id_eq.symm)
  exact ⟨c, definedIn_iff.mpr ⟨j, h.mem_earlier, h.earlier_eq⟩, hc.trans hd⟩

/-- With the right dominators, a value is replaced by one that is computed wherever it is. -/
theorem Regular.replacementsReach (hf : f.Regular) (hNodes : dom.nodes = f.reversePostorder)
    (hDom : ∀ d b, dom.dominates d b = true → f.Guards d b) :
    f.ReplacementsReach (f.dominatedRedundancies dom) where
  operand b hb i hi hPhi _ r hr hv := by
    obtain ⟨b', c, i', j, hRep⟩ := exists_repeats hf.distinct hNodes (congruence_true _) hr
    obtain ⟨earlier, later, hCode⟩ := List.append_of_mem hi
    exact hRep.reaches hf.toListed (hDom c b' hRep.dominates)
      (guards_of_ready hCode (hf.operand b hb earlier i later hCode hPhi _ hv))
  incoming b hb i hi incoming hOp p hp hLive r hr hv := by
    obtain ⟨b', c, i', j, hRep⟩ := exists_repeats hf.distinct hNodes (congruence_true _) hr
    obtain ⟨d, hd, k, hk, -, hId⟩ := hf.incoming b hb i hi incoming hOp p hp hLive
    exact hRep.reaches hf.toListed (hDom c b' hRep.dominates)
      ⟨d, definedIn_iff.mpr ⟨k, hk, hId.trans hv.symm⟩, hd⟩

theorem Regular.eliminateDominated (hf : f.Regular) (hNodes : dom.nodes = f.reversePostorder)
    (hDom : ∀ d b, dom.dominates d b = true → f.Guards d b) : (f.eliminateDominated dom).2.Regular :=
  ⟨hf.toLawful.eliminateDominated hNodes,
    (hf.scoped_eliminateDominated_iff hNodes).mpr (hf.replacementsReach hNodes hDom)⟩

end Scoped

end Func

end Midend
