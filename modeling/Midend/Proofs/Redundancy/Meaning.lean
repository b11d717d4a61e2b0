import Midend.Proofs.Flow.Strict
import Midend.Proofs.Redundancy.Expansion
import Midend.Shape.Request

/-!
# Elimination keeps the meaning of a function

Along any path, what is in scope at a place is the values that have been computed there whichever
way control came (`Func.Ready`). Two facts are carried along (`Func.Agrees`): constants, operators
and conversions in scope have the values that their operands in scope give them, although blocks may
have been entered again and again; and what stands in the place of a value in scope has its value.
So a redundant value may be left out, and what is left reads and yields what it did.
-/

namespace Midend

theorem Valuation.set_self {α : Type} (s : Valuation α) (v : ValueId) (a : α) : s.set v a v = a :=
  if_pos rfl

theorem Valuation.set_of_ne {α : Type} (s : Valuation α) {v w : ValueId} (a : α) (h : w ≠ v) :
    s.set v a w = s w :=
  if_neg h

namespace Inst

variable {α : Type} {m : Interpretation α} {i : Inst}

/-- What an instruction yields depends on what it reads. -/
theorem yields_mapOperands {ren : ValueId → ValueId} {world : α} {s s' : Valuation α}
    (h : ∀ v ∈ i.op.operands, s' (ren v) = s v) :
    (i.mapOperands ren).yields m world s' = i.yields m world s := by
  rcases i with ⟨id, ty, known, op⟩
  cases op with
  | binary o a b =>
    have ha := h a (by simp [Op.operands])
    have hb := h b (by simp [Op.operands])
    simp [yields, mapOperands, Op.mapOperands, ha, hb]
  | unary o a | convert a =>
    have ha := h a (by simp [Op.operands])
    simp [yields, mapOperands, Op.mapOperands, ha]
  | _ => rfl

theorem yields_congr {world : α} {s s' : Valuation α} (h : ∀ v ∈ i.op.operands, s' v = s v) :
    i.yields m world s' = i.yields m world s := by
  have hEq : (i.mapOperands fun v => v).yields m world s' = i.yields m world s :=
    yields_mapOperands h
  rwa [mapOperands_self] at hEq

theorem yields_of_isFormula (h : i.op.isFormula = true) (world world' : α) (s : Valuation α) :
    i.yields m world s = i.yields m world' s := by
  rcases i with ⟨id, ty, known, op⟩
  cases op <;> first | rfl | cases h

theorem taken?_none (i : Inst) : i.taken? none = none := by
  rcases i with ⟨id, ty, known, op⟩
  cases op <;> rfl

theorem taken?_mapOperands (ren : ValueId → ValueId) (came : Option BlockId) :
    (i.mapOperands ren).taken? came = (i.taken? came).map ren := by
  rcases i with ⟨id, ty, known, op⟩
  cases op with
  | phi incoming =>
    cases came with
    | none => rfl
    | some b => simp [taken?, mapOperands, Op.mapOperands, List.find?_map, Function.comp_def]
  | _ => rfl

theorem taken?_eq_some {b : BlockId} {v : ValueId} (h : i.taken? (some b) = some v) :
    ∃ incoming, i.op = .phi incoming ∧ ⟨b, v⟩ ∈ incoming := by
  rcases i with ⟨id, ty, known, op⟩
  cases op with
  | phi incoming =>
    obtain ⟨p, hp, rfl⟩ := Option.map_eq_some_iff.mp h
    refine ⟨incoming, rfl, ?_⟩
    have hBlock : p.block = b := by simpa using List.find?_some hp
    exact hBlock ▸ List.mem_of_find?_eq_some hp
  | _ => cases h

end Inst

namespace Func

variable {f g : Func} {a b d : BlockId} {i : Inst} {v w : ValueId} {earlier later : List Inst}

/-! ## Scope -/

theorem Ready.mono {l l' : List Inst} (h : f.Ready b l v) (hSub : ∀ i ∈ l, i ∈ l') : f.Ready b l' v :=
  h.imp_left fun ⟨i, hi, hId⟩ => ⟨i, hSub i hi, hId⟩

theorem ready_append_singleton :
    f.Ready b (earlier ++ [i]) v ↔ f.Ready b earlier v ∨ v = i.id := by
  constructor
  · rintro (⟨j, hj, rfl⟩ | h)
    · rcases List.mem_append.mp hj with hj | hj
      · exact .inl (.inl ⟨j, hj, rfl⟩)
      · exact .inr (congrArg Inst.id (List.mem_singleton.mp hj))
    · exact .inl (.inr h)
  · rintro (h | rfl)
    · exact h.mono fun j hj => List.mem_append_left _ hj
    · exact .inl ⟨i, by simp, rfl⟩

theorem Arrives.ready (h : f.Arrives b v) : f.Ready b (f.code b) v := by
  obtain ⟨d, hd, i, hi, hTerm, hId⟩ := h
  by_cases hne : d = b
  · subst hne
    exact .inl ⟨i, hi, hId⟩
  · exact .inr ⟨d, hne, hd, i, hi, hTerm, hId⟩

/-- An instruction is not in scope where it stands. -/
theorem Listed.ready_ne (hf : f.Listed) (hCode : f.code b = earlier ++ i :: later)
    (hv : f.Ready b earlier v) : v ≠ i.id := by
  have hi : i ∈ f.code b := by simp [hCode]
  rintro rfl
  rcases hv with ⟨j, hj, hId⟩ | ⟨d, hne, -, j, hj, -, hId⟩
  · have hNodup := hf.nodup b
    rw [hCode, List.map_append, List.map_cons] at hNodup
    exact (List.nodup_append.mp hNodup).2.2 j.id (List.mem_map_of_mem hj) i.id List.mem_cons_self hId
  · exact hne (hf.eq_of_id_eq hj hi hId).1

/-- What an instruction in scope reads is in scope. -/
theorem Regular.ready_operand (hf : f.Regular) (hb : f.Live b) (hCode : f.code b = earlier ++ later)
    (hi : i ∈ f.code d) (hPhi : i.isPhi = false) (hv : f.Ready b earlier i.id)
    (hw : w ∈ i.op.operands) : f.Ready b earlier w := by
  rcases hv with ⟨i', hi', hId⟩ | ⟨d', hne, hd, i', hi', -, hId⟩
  · have hMem : i' ∈ f.code b := by
      rw [hCode]
      exact List.mem_append_left _ hi'
    obtain ⟨rfl, rfl⟩ := hf.eq_of_id_eq hMem hi hId
    obtain ⟨front, back, rfl⟩ := List.append_of_mem hi'
    rw [List.append_assoc, List.cons_append] at hCode
    exact (hf.operand b hb front i' _ hCode hPhi w hw).mono fun j hj => List.mem_append_left _ hj
  · obtain ⟨rfl, rfl⟩ := hf.eq_of_id_eq hi' hi hId
    obtain ⟨front, back, hCode'⟩ := List.append_of_mem hi
    rcases hf.operand d' (hd.live hb) front i' back hCode' hPhi w hw with
      ⟨j, hj, rfl⟩ | ⟨c, hne', hc, hComp⟩
    · have hMem : j ∈ f.code d' := by
        rw [hCode']
        exact List.mem_append_left _ hj
      exact .inr ⟨d', hne, hd, j, hMem, hf.not_isTerminator_operand hi hw hMem rfl, rfl⟩
    · refine .inr ⟨c, fun hEq => hne' ?_, hc.trans hd, hComp⟩
      subst hEq
      exact hc.antisymm hd (hd.live hb)

theorem Regular.closed (hf : f.Regular) (hb : f.Live b) (hCode : f.code b = earlier ++ later) :
    f.Closed (f.Ready b earlier) := fun _ _ hi hForm hv _ hw =>
  hf.ready_operand hb hCode hi (Inst.not_isPhi_of_isFormula hForm) hv hw

/-! ## Values in scope -/

section Agrees

variable {α : Type} {m : Interpretation α} {s s' : Valuation α} {x y : α}

/-- Computing the next value disturbs nothing in scope. -/
theorem Solved.set (hf : f.Regular) (hb : f.Live b) (hCode : f.code b = earlier ++ i :: later)
    (hs : f.Solved m (f.Ready b earlier) s)
    (hx : i.op.isFormula = true → ∀ world, x = i.yields m world s) :
    f.Solved m (f.Ready b (earlier ++ [i])) (s.set i.id x) := by
  intro d j hj hForm hv world
  have hi : i ∈ f.code b := by simp [hCode]
  have hKeeps : (∀ w ∈ j.op.operands, f.Ready b earlier w) →
      j.yields m world (s.set i.id x) = j.yields m world s := fun hRead =>
    Inst.yields_congr fun w hw => s.set_of_ne x (hf.ready_ne hCode (hRead w hw))
  rcases ready_append_singleton.mp hv with hv | hId
  · rw [s.set_of_ne x (hf.ready_ne hCode hv), hs d j hj hForm hv world]
    exact (hKeeps fun w hw => hf.closed hb hCode d j hj hForm hv w hw).symm
  · obtain ⟨rfl, rfl⟩ := hf.eq_of_id_eq hj hi hId
    rw [s.set_self]
    exact (hx hForm world).trans
      (hKeeps (hf.operand d hb earlier j later hCode (Inst.not_isPhi_of_isFormula hForm))).symm

/-- Dropped values are constants, operators and conversions, and what stands in their place has the
same expansion and is in scope where they are. -/
structure Replaces (f : Func) (gone : ValueId → Bool) (ren : ValueId → ValueId) : Prop where
  isFormula : ∀ b, ∀ i ∈ f.code b, gone i.id = true → i.op.isFormula = true
  ren_eq : ∀ v, gone v = false → ren v = v
  kept : ∀ v, gone (ren v) = false
  expands_iff : ∀ v e, Expands f.insts v e ↔ Expands f.insts (ren v) e
  ready : ∀ b earlier later v, f.code b = earlier ++ later → f.Ready b earlier v →
    f.Ready b earlier (ren v)
  ready_self : ∀ b earlier i later, f.code b = earlier ++ i :: later → gone i.id = true →
    f.Ready b earlier (ren i.id)

/-- At a place of a path, values in scope are what their operands make them, and what stands in
their place has their value in the other valuation. -/
structure Agrees (f : Func) (m : Interpretation α) (ren : ValueId → ValueId) (b : BlockId)
    (earlier : List Inst) (s s' : Valuation α) : Prop where
  solved : f.Solved m (f.Ready b earlier) s
  renamed : ∀ v, f.Ready b earlier v → s' (ren v) = s v

variable {gone : ValueId → Bool} {ren : ValueId → ValueId}

/-- With less in scope there is less to ask. -/
theorem Agrees.anti {l : List Inst} (h : f.Agrees m ren a l s s')
    (hSub : ∀ v, f.Ready b earlier v → f.Ready a l v) : f.Agrees m ren b earlier s s' where
  solved d i hi hForm hv := h.solved d i hi hForm (hSub i.id hv)
  renamed v hv := h.renamed v (hSub v hv)

/-- An instruction that stays is computed on both sides. -/
theorem Agrees.keep (h : f.Agrees m ren b earlier s s') (x : α) (hf : f.Regular)
    (hRep : f.Replaces gone ren) (hb : f.Live b) (hCode : f.code b = earlier ++ i :: later)
    (hStays : gone i.id = false) (hx : i.op.isFormula = true → ∀ world, x = i.yields m world s) :
    f.Agrees m ren b (earlier ++ [i]) (s.set i.id x) (s'.set i.id x) where
  solved := h.solved.set hf hb hCode hx
  renamed v hv := by
    rcases ready_append_singleton.mp hv with hv | rfl
    · have hv' := hRep.ready b earlier _ v hCode hv
      rw [s.set_of_ne x (hf.ready_ne hCode hv), s'.set_of_ne x (hf.ready_ne hCode hv')]
      exact h.renamed v hv
    · rw [hRep.ren_eq i.id hStays, s.set_self, s'.set_self]

/-- A dropped instruction is computed on one side only; the other side has its value already. -/
theorem Agrees.drop (h : f.Agrees m ren b earlier s s') (hf : f.Regular)
    (hRep : f.Replaces gone ren) (hb : f.Live b) (hCode : f.code b = earlier ++ i :: later)
    (hGone : gone i.id = true) (hx : ∀ world, x = i.yields m world s) :
    f.Agrees m ren b (earlier ++ [i]) (s.set i.id x) s' := by
  have hi : i ∈ f.code b := by simp [hCode]
  have hSolved := h.solved.set hf hb hCode fun _ => hx
  refine ⟨hSolved, fun v hv => ?_⟩
  rcases ready_append_singleton.mp hv with hv | rfl
  · rw [s.set_of_ne x (hf.ready_ne hCode hv)]
    exact h.renamed v hv
  · have hEarlier := hRep.ready_self b earlier i later hCode hGone
    obtain ⟨e, he⟩ := hf.exists_expands hb hi
    have hCode' : f.code b = (earlier ++ [i]) ++ later := by simp [hCode]
    have hEq : ∀ v, f.Ready b (earlier ++ [i]) v → Expands f.insts v e →
        s.set i.id x v = e.eval m (s.set i.id x) :=
      fun v hv he => hSolved.eq_eval (hf.closed hb hCode') he hv
    calc s' (ren i.id) = s' (ren (ren i.id)) := by rw [hRep.ren_eq _ (hRep.kept i.id)]
      _ = s (ren i.id) := h.renamed _ hEarlier
      _ = s.set i.id x (ren i.id) := (s.set_of_ne x (hf.ready_ne hCode hEarlier)).symm
      _ = e.eval m (s.set i.id x) :=
        hEq _ (ready_append_singleton.mpr (.inl hEarlier)) ((hRep.expands_iff i.id e).mp he)
      _ = s.set i.id x i.id := (hEq _ hv he).symm

end Agrees

/-! ## Blocks and paths -/

section Paths

variable {α : Type} {m : Interpretation α} {s s' entered entered' : Valuation α}
  {gone : ValueId → Bool} {ren : ValueId → ValueId} {stays : ValueId → Bool} {came : Option BlockId}
  {l : List Inst}

theorem bodyReadings_cons (world : ValueId → α) : bodyReadings m world (i :: l) s =
    (⟨i.id, i.op.operands.map s, i.yields m (world i.id) s⟩ ::
      (bodyReadings m world l (s.set i.id (i.yields m (world i.id) s))).1,
      (bodyReadings m world l (s.set i.id (i.yields m (world i.id) s))).2) := rfl

/-- An instruction that reads other names of the same values reads and yields the same. -/
theorem bodyReadings_renamed (world : ValueId → α)
    (h : ∀ v ∈ i.op.operands, s' (ren v) = s v) :
    bodyReadings m world (i.mapOperands ren :: l) s' =
      (⟨i.id, i.op.operands.map s, i.yields m (world i.id) s⟩ ::
        (bodyReadings m world l (s'.set i.id (i.yields m (world i.id) s))).1,
        (bodyReadings m world l (s'.set i.id (i.yields m (world i.id) s))).2) := by
  have hId : (i.mapOperands ren).id = i.id := rfl
  have hReads : (i.mapOperands ren).op.operands.map s' = i.op.operands.map s := by
    rw [Inst.mapOperands, Op.operands_mapOperands, List.map_map]
    exact List.map_congr_left h
  rw [bodyReadings_cons, hId, hReads, Inst.yields_mapOperands h]

/-- What a phi takes when control comes from a block, if it takes anything. -/
def taking (entered : Valuation α) (came : Option BlockId) (i : Inst) : Option α :=
  (i.taken? came).map entered

theorem phiReadings_cons (world : ValueId → α) : phiReadings world came entered (i :: l) s =
    (⟨i.id, (taking entered came i).toList, (taking entered came i).getD (world i.id)⟩ ::
      (phiReadings world came entered l
        (s.set i.id ((taking entered came i).getD (world i.id)))).1,
      (phiReadings world came entered l
        (s.set i.id ((taking entered came i).getD (world i.id)))).2) := rfl

theorem phiReadings_renamed (world : ValueId → α)
    (h : taking entered' came (i.mapOperands ren) = taking entered came i) :
    phiReadings world came entered' (i.mapOperands ren :: l) s' =
    (⟨i.id, (taking entered came i).toList, (taking entered came i).getD (world i.id)⟩ ::
      (phiReadings world came entered' l
        (s'.set i.id ((taking entered came i).getD (world i.id)))).1,
      (phiReadings world came entered' l
        (s'.set i.id ((taking entered came i).getD (world i.id)))).2) := by
  have hId : (i.mapOperands ren).id = i.id := rfl
  rw [phiReadings_cons, hId, h]

theorem spare_cons_of_gone (h : gone i.id = true) : spare gone ren (i :: l) = spare gone ren l := by
  simp [spare, h]

theorem spare_cons_of_stays (h : gone i.id = false) :
    spare gone ren (i :: l) = i.mapOperands ren :: spare gone ren l := by
  simp [spare, h]

/-- On both sides what stays has the same readings, and then the values agree. -/
structure SameReadings (f : Func) (m : Interpretation α) (ren : ValueId → ValueId)
    (stays : ValueId → Bool) (b : BlockId) (done : List Inst)
    (out out' : List (Reading α) × Valuation α) : Prop where
  readings_eq : out'.1 = out.1.filter fun r => stays r.value
  agrees : f.Agrees m ren b done out.2 out'.2

theorem SameReadings.keep {out out' : List (Reading α) × Valuation α} (r : Reading α)
    (h : f.SameReadings m ren stays b l out out') (hr : stays r.value = true) :
    f.SameReadings m ren stays b l (r :: out.1, out.2) (r :: out'.1, out'.2) :=
  ⟨by simp [h.readings_eq, hr], h.agrees⟩

theorem SameReadings.drop {out out' : List (Reading α) × Valuation α} (r : Reading α)
    (h : f.SameReadings m ren stays b l out out') (hr : stays r.value = false) :
    f.SameReadings m ren stays b l (r :: out.1, out.2) out' :=
  ⟨by simp [h.readings_eq, hr], h.agrees⟩

/-- The body of a block, one instruction after the other. -/
theorem Agrees.body (hf : f.Regular) (hRep : f.Replaces gone ren)
    (hStays : ∀ b, ∀ i ∈ f.code b, stays i.id = !gone i.id) (hb : f.Live b)
    (world : ValueId → α) (hPhi : ∀ i ∈ l, i.isPhi = false) (hCode : f.code b = earlier ++ l)
    (h : f.Agrees m ren b earlier s s') :
    f.SameReadings m ren stays b (earlier ++ l) (bodyReadings m world l s)
      (bodyReadings m world (spare gone ren l) s') := by
  induction l generalizing earlier s s' with
  | nil => exact ⟨rfl, by rwa [List.append_nil]⟩
  | cons i l ih =>
    have hi : i ∈ f.code b := by simp [hCode]
    have hDone : earlier ++ i :: l = (earlier ++ [i]) ++ l := by simp
    have hRest : ∀ j ∈ l, j.isPhi = false := fun j hj => hPhi j (List.mem_cons_of_mem _ hj)
    have hRead : ∀ v ∈ i.op.operands, s' (ren v) = s v := fun v hv =>
      h.renamed v (hf.operand b hb earlier i l hCode (hPhi i List.mem_cons_self) v hv)
    have hFormula : i.op.isFormula = true → ∀ w, i.yields m (world i.id) s = i.yields m w s :=
      fun hForm w => Inst.yields_of_isFormula hForm _ w s
    rw [bodyReadings_cons, hDone]
    cases hGone : gone i.id with
    | true =>
      have hOut := ih hRest (hCode.trans hDone) (h.drop hf hRep hb hCode hGone
        (hFormula (hRep.isFormula b i hi hGone)))
      rw [spare_cons_of_gone hGone]
      exact hOut.drop _ (by simp [hStays b i hi, hGone])
    | false =>
      have hOut := ih hRest (hCode.trans hDone) (h.keep _ hf hRep hb hCode hGone hFormula)
      rw [spare_cons_of_stays hGone, bodyReadings_renamed world hRead]
      exact hOut.keep _ (by simp [hStays b i hi, hGone])

/-- The phis of a block, which all take their values from where control came. -/
theorem Agrees.phis (hf : f.Regular) (hRep : f.Replaces gone ren)
    (hStays : ∀ b, ∀ i ∈ f.code b, stays i.id = !gone i.id) (hb : f.Live b)
    (world : ValueId → α) (hPhi : ∀ i ∈ l, i.isPhi = true)
    (hCode : f.code b = earlier ++ l ++ later)
    (hTaking : ∀ i ∈ l, taking entered' came (i.mapOperands ren) = taking entered came i)
    (h : f.Agrees m ren b earlier s s') :
    f.SameReadings m ren stays b (earlier ++ l) (phiReadings world came entered l s)
      (phiReadings world came entered' (spare gone ren l) s') := by
  induction l generalizing earlier s s' with
  | nil => exact ⟨rfl, by rwa [List.append_nil]⟩
  | cons i l ih =>
    have hi : i ∈ f.code b := by simp [hCode]
    have hDone : earlier ++ i :: l = (earlier ++ [i]) ++ l := by simp
    have hForm : i.op.isFormula = false := by
      by_contra hForm
      have hNot := Inst.not_isPhi_of_isFormula (Bool.of_not_eq_false hForm)
      rw [hPhi i List.mem_cons_self] at hNot
      cases hNot
    have hKept : gone i.id = false := by
      by_contra hGone
      rw [hRep.isFormula b i hi (Bool.of_not_eq_false hGone)] at hForm
      cases hForm
    have hCode' : f.code b = earlier ++ i :: (l ++ later) := by simp [hCode]
    have hOut := ih (fun j hj => hPhi j (List.mem_cons_of_mem _ hj)) (by rw [hCode, hDone])
      (fun j hj => hTaking j (List.mem_cons_of_mem _ hj))
      (h.keep ((taking entered came i).getD (world i.id)) hf hRep hb hCode' hKept fun hTrue =>
        absurd hTrue (by simp [hForm]))
    rw [phiReadings_cons, hDone, spare_cons_of_stays hKept,
      phiReadings_renamed world (hTaking i List.mem_cons_self)]
    exact hOut.keep _ (by simp [hStays b i hi, hKept])

theorem filter_spare {p : Inst → Bool} (hp : ∀ i, p (i.mapOperands ren) = p i) :
    (spare gone ren l).filter p = spare gone ren (l.filter p) := by
  simp only [spare, List.filter_map, List.filter_filter, Function.comp_def, hp, Bool.and_comm]

/-- In a block in order the phis come first. -/
theorem filter_isPhi_append (h : l.Pairwise Inst.Precedes) :
    l.filter (·.isPhi) ++ l.filter (!·.isPhi) = l := by
  induction l with
  | nil => rfl
  | cons i l ih =>
    obtain ⟨hi, hl⟩ := List.pairwise_cons.mp h
    cases hPhi : i.isPhi with
    | true => simp [hPhi, ih hl]
    | false =>
      have hNone : ∀ j ∈ l, j.isPhi = false := fun j hj => by
        by_contra hTrue
        rw [(hi j hj).1 (Bool.of_not_eq_false hTrue)] at hPhi
        cases hPhi
      have hNil : l.filter (·.isPhi) = [] := List.filter_eq_nil_iff.mpr (by simpa using hNone)
      have hAll := ih hl
      rw [hNil, List.nil_append] at hAll
      simp [hPhi, hNil, hAll]

theorem readings_eq (world : ValueId → α) (blk : Block) : blk.readings m world came s =
    ((phiReadings world came s blk.phis s).1 ++
        (bodyReadings m world (blk.insts.filter (!·.isPhi)) (phiReadings world came s blk.phis s).2).1,
      (bodyReadings m world (blk.insts.filter (!·.isPhi)) (phiReadings world came s blk.phis s).2).2) :=
  rfl

/-- What a block on the way does on both sides, from where control enters it to its end. -/
theorem Agrees.block (hf : f.Regular) (hRep : f.Replaces gone ren)
    (hStays : ∀ b, ∀ i ∈ f.code b, stays i.id = !gone i.id) (hb : f.Live b)
    (world : ValueId → α) {blk blk' : Block} (hBlk : f.block? b = some blk)
    (hInsts : blk'.insts = spare gone ren blk.insts)
    (hTaking : ∀ i ∈ f.code b, taking s' came (i.mapOperands ren) = taking s came i)
    (h : f.Agrees m ren b [] s s') :
    f.SameReadings m ren stays b (f.code b) (blk.readings m world came s)
      (blk'.readings m world came s') := by
  have hCode := code_of_block? hBlk
  have hSplit : f.code b = blk.phis ++ blk.insts.filter (!·.isPhi) := by
    rw [hCode]
    exact (filter_isPhi_append (hCode ▸ hf.ordered b)).symm
  have hIsPhi : ∀ i : Inst, (i.mapOperands ren).isPhi = i.isPhi := fun i =>
    (Inst.like_mapOperands ren i).isPhi_eq
  have hPhis : blk'.phis = spare gone ren blk.phis := by
    rw [Block.phis, Block.phis, hInsts, filter_spare hIsPhi]
  have hBody : blk'.insts.filter (!·.isPhi) = spare gone ren (blk.insts.filter (!·.isPhi)) := by
    rw [hInsts, filter_spare fun i => by rw [hIsPhi]]
  have hFirst := h.phis hf hRep hStays hb world (l := blk.phis)
    (fun i hi => (List.mem_filter.mp hi).2) hSplit
    (fun i hi => hTaking i (hCode ▸ (List.mem_filter.mp hi).1))
  have hSecond := hFirst.agrees.body hf hRep hStays hb world
    (fun i hi => by simpa using (List.mem_filter.mp hi).2) hSplit
  rw [readings_eq, readings_eq, hPhis, hBody]
  refine ⟨?_, ?_⟩
  · rw [hFirst.readings_eq, hSecond.readings_eq, List.filter_append]
  · rw [hSplit]
    exact hSecond.agrees

/-- Where control enters the function nothing is in scope. -/
theorem Agrees.entry (hEntry : f.entry = some b) (s s' : Valuation α) : f.Agrees m ren b [] s s' := by
  have hNone : ∀ v, ¬ f.Ready b [] v := by
    rintro v (⟨i, hi, -⟩ | ⟨d, hne, hd, -⟩)
    · exact List.not_mem_nil hi
    · exact hne (List.mem_singleton.mp (hd b hEntry [b] (.nil b)))
  exact ⟨fun d i hi hForm hv => absurd hv (hNone _), fun v hv => absurd hv (hNone _)⟩

/-- What is in scope where control enters a block is in scope at the end of the block before. -/
theorem Agrees.enter (h : f.Agrees m ren a (f.code a) s s') (edge : b ∈ f.succs a) :
    f.Agrees m ren b [] s s' := by
  refine h.anti fun v hv => ?_
  obtain ⟨d, hne, hd, hComp⟩ := hv.resolve_left fun ⟨i, hi, _⟩ => List.not_mem_nil hi
  exact (Arrives.ready ⟨d, hd.of_edge hne edge, hComp⟩)

/-- A phi takes the same on both sides. -/
theorem Agrees.taking_eq (h : f.Agrees m ren a (f.code a) s s') (hf : f.Regular) (ha : f.Live a)
    (hb : f.Live b) (hi : i ∈ f.code b) :
    taking s' (some a) (i.mapOperands ren) = taking s (some a) i := by
  rw [taking, taking, Inst.taken?_mapOperands, Option.map_map]
  cases hTaken : i.taken? (some a) with
  | none => rfl
  | some v =>
    obtain ⟨incoming, hOp, hMem⟩ := Inst.taken?_eq_some hTaken
    exact congrArg some (h.renamed v (hf.incoming b hb i hi incoming hOp _ hMem ha).ready)

theorem readings_cons {blk : Block} (hBlk : f.block? b = some blk) (path : List BlockId)
    (world : Nat → ValueId → α) : f.readings m (b :: path) world came s =
      (blk.readings m (world 0) came s).1 ++
        f.readings m path (fun n => world (n + 1)) (some b) (blk.readings m (world 0) came s).2 := by
  rw [readings, hBlk]

/-- One block, and the rest of the path from its end. -/
theorem Agrees.readings_cons (hf : f.Regular) (hRep : f.Replaces gone ren)
    (hfg : Spared f gone ren g) (hStays : ∀ b, ∀ i ∈ f.code b, stays i.id = !gone i.id)
    (hb : f.Live b) {path : List BlockId} {world : Nat → ValueId → α}
    (hTaking : ∀ i ∈ f.code b, taking s' came (i.mapOperands ren) = taking s came i)
    (h : f.Agrees m ren b [] s s')
    (hRest : ∀ t t', f.Agrees m ren b (f.code b) t t' →
      g.readings m path (fun n => world (n + 1)) (some b) t' =
        (f.readings m path (fun n => world (n + 1)) (some b) t).filter fun r => stays r.value) :
    g.readings m (b :: path) world came s' =
      (f.readings m (b :: path) world came s).filter fun r => stays r.value := by
  obtain ⟨blk, hBlk⟩ := hasBlock_iff.mp (hf.hasBlock_of_live hb)
  obtain ⟨blk', hBlk', hInsts⟩ : ∃ blk', g.block? b = some blk' ∧
      blk'.insts = spare gone ren blk.insts := by
    refine ⟨_, (hfg.block?_eq b).trans (congrArg _ hBlk), rfl⟩
  have hOut := h.block hf hRep hStays hb (world 0) hBlk hInsts hTaking
  rw [Func.readings_cons hBlk, Func.readings_cons hBlk', List.filter_append, ← hOut.readings_eq,
    hRest _ _ hOut.agrees]

/-- Along every path what stays has the same readings on both sides. -/
theorem Agrees.readings (hf : f.Regular) (hRep : f.Replaces gone ren) (hfg : Spared f gone ren g)
    (hStays : ∀ b, ∀ i ∈ f.code b, stays i.id = !gone i.id) {path : List BlockId} {c : BlockId}
    (w : f.flow.Walk b path c) (hb : f.Live b) (world : Nat → ValueId → α)
    (hTaking : ∀ i ∈ f.code b, taking s' came (i.mapOperands ren) = taking s came i)
    (h : f.Agrees m ren b [] s s') :
    g.readings m path world came s' =
      (f.readings m path world came s).filter fun r => stays r.value := by
  induction w generalizing world came s s' with
  | nil b => exact h.readings_cons hf hRep hfg hStays hb hTaking fun _ _ _ => rfl
  | @cons b d c path edge rest ih =>
    refine h.readings_cons hf hRep hfg hStays hb hTaking fun t t' hEnd => ?_
    have hd := hb.step edge
    exact ih hd _ (fun i hi => hEnd.taking_eq hf hb hd hi) (hEnd.enter edge)

end Paths

/-! ## Elimination by dominance -/

section Dominated

variable {dom : Dominance}

open Redundancy in
/-- With the right dominators, what stands in the place of a value is computed wherever the value
is. -/
theorem Regular.replaces (hf : f.Regular) (hNodes : dom.nodes = f.reversePostorder)
    (hDom : ∀ d b, dom.dominates d b = true → f.Guards d b) :
    f.Replaces (isGone (f.dominatedRedundancies dom)) (rename (f.dominatedRedundancies dom)) where
  isFormula _ _ hi := isFormula_of_isGone hf.distinct hNodes hi
  ren_eq _ := rename_of_not_isGone
  kept := not_isGone_rename_dominated hf.distinct hNodes
  expands_iff := related_rename hf.distinct hf.congruence_expands
  ready x earlier later v hCode hv := by
    cases hGone : isGone (f.dominatedRedundancies dom) v with
    | false => rwa [rename_of_not_isGone hGone]
    | true =>
      obtain ⟨r, hr, rfl, hEq⟩ := exists_rename_eq hGone
      obtain ⟨b, c, i, j, hRep⟩ := exists_repeats hf.distinct hNodes (congruence_true _) hr
      have hReach := hRep.reaches hf.toListed (hDom c b hRep.dominates) (guards_of_ready hCode hv)
      rw [hEq]
      exact hRep.ready hf.toLawful (hRep.guards hf.toListed hReach) hCode hv
  ready_self x earlier i later hCode hGone := by
    obtain ⟨r, hr, hId, hEq⟩ := exists_rename_eq hGone
    obtain ⟨b, c, i', j, hRep⟩ := exists_repeats hf.distinct hNodes (congruence_true _) hr
    have hi : i ∈ f.code x := by simp [hCode]
    obtain ⟨rfl, rfl⟩ := hf.eq_of_id_eq hi hRep.mem (hId.symm.trans hRep.id_eq.symm)
    rw [hEq]
    by_cases hne : c = x
    · obtain ⟨front, back, hCode', hj⟩ := hRep.comes_first hne
      obtain rfl := hf.distinct.front_eq hCode hCode'
      exact .inl ⟨j, hj, hRep.earlier_eq⟩
    · exact .inr ⟨c, hne, hDom c x hRep.dominates, hRep.computes⟩

theorem Spared.hasValue_eq {gone : ValueId → Bool} {ren : ValueId → ValueId}
    (hfg : Spared f gone ren g) (hf : f.Distinct) (hi : i ∈ f.code b) :
    g.hasValue i.id = !gone i.id := by
  rw [Bool.eq_iff_iff, hasValue_iff, Bool.not_eq_true']
  constructor
  · rintro ⟨j, hj, hId⟩
    obtain ⟨c, -, hj⟩ := mem_insts_iff.mp hj
    obtain ⟨k, -, hStays, rfl⟩ := hfg.mem_code.mp hj
    exact hId ▸ hStays
  · intro hStays
    refine ⟨i.mapOperands ren, mem_insts_iff.mpr ⟨b, ?_, hfg.mem_code.mpr ⟨i, hi, hStays, rfl⟩⟩, rfl⟩
    rw [hfg.layout_eq]
    exact hf.mem_layout b (hasBlock_of_mem_code hi)

open Redundancy in
/-- **Elimination keeps the meaning.** Take a consistent, valid and strict function and its
dominators. After elimination it has the same blocks and edges. What is gone are constants,
operators and conversions, each with the expansion of a value that stays. Along every path from the
entry, whatever the operators mean and the world does, the instructions that stay read and yield
what they did. -/
theorem eliminateDominated_keeps_readings (f : Func) (hConsistent : f.Consistent)
    (hValid : f.isValid = true) (hStrict : f.Strict) {cap : Nat} {r : Fixpoint Dominance}
    (hDom : f.dominance cap = .ok r) (hConverged : r.isConverged = true) :
    let g := (f.eliminateDominated r.value).2
    (g.layout = f.layout ∧ g.entry = f.entry ∧
      ∀ b, g.hasBlock b = f.hasBlock b ∧ g.label? b = f.label? b ∧ g.preds b = f.preds b ∧
        g.succs b = f.succs b) ∧
    (∀ i ∈ f.insts, g.hasValue i.id = false → i.op.isFormula = true ∧
      ∃ j ∈ f.insts, g.hasValue j.id = true ∧
        ∃ e, Expands f.insts i.id e ∧ Expands f.insts j.id e) ∧
    ∀ {α : Type} (m : Interpretation α) (world : Nat → ValueId → α) (s : Valuation α) (e b : BlockId)
      (path : List BlockId), f.entry = some e → f.flow.Walk e path b →
        g.readings m path world none s =
          (f.readings m path world none s).filter fun reading => g.hasValue reading.value := by
  intro g
  have hf : f.Regular := regular_iff.mpr ⟨hConsistent, hValid, hStrict⟩
  have hNodes := nodes_of_dominance hDom
  have hGuards : ∀ d b, r.value.dominates d b = true → f.Guards d b := fun d b =>
    guards_of_dominates hf.mirrored hDom hConverged
  have hfg : Spared f _ _ g := eliminateDominated_spared hf.distinct hNodes
  have hRep := hf.replaces hNodes hGuards
  have hStays : ∀ b, ∀ i ∈ f.code b, g.hasValue i.id = !isGone (f.dominatedRedundancies r.value) i.id :=
    fun b i hi => hfg.hasValue_eq hf.distinct hi
  refine ⟨⟨hfg.layout_eq, hfg.entry_eq, fun b => ⟨hfg.frame.hasBlock_eq b, hfg.frame.label?_eq b,
    hfg.preds_eq b, hfg.succs_eq b⟩⟩, ?_, ?_⟩
  · intro i hi hGone
    obtain ⟨b, hi⟩ := (mem_insts hf.mem_layout).mp hi
    rw [hStays b i hi, Bool.not_eq_false'] at hGone
    refine ⟨hRep.isFormula b i hi hGone, ?_⟩
    obtain ⟨t, ht, hId, hEq⟩ := exists_rename_eq hGone
    obtain ⟨b', c, i', j, hTwin⟩ := exists_repeats hf.distinct hNodes hf.congruence_expands ht
    obtain ⟨rfl, rfl⟩ := hf.eq_of_id_eq hi hTwin.mem (hId.symm.trans hTwin.id_eq.symm)
    obtain ⟨e, he⟩ := hf.exists_expands hTwin.live hi
    refine ⟨j, (mem_insts hf.mem_layout).mpr ⟨c, hTwin.mem_earlier⟩, ?_, e, he, ?_⟩
    · rw [hStays c j hTwin.mem_earlier, hTwin.earlier_eq, isGone_earlier hf.distinct hNodes ht]
      rfl
    · rw [hTwin.earlier_eq, ← hEq]
      exact (hRep.expands_iff i.id e).mp he
  · intro α m world s e b path hEntry w
    exact Agrees.readings hf hRep hfg hStays w ⟨e, hEntry, .refl e⟩ world
      (fun i _ => by simp [taking, Inst.taken?_none]) (.entry hEntry s s)

/-- Counts up in a loop. The block inside the loop computes again what its head has computed, from a
constant that it writes out again. -/
def counting : Func :=
  [.createBlock "entry", .createBlock "head", .createBlock "body", .createBlock "exit",
    .append ⟨0⟩ (.scalar .i32) (.const (.int 0)), .append ⟨0⟩ (.scalar .i32) (.const (.int 9)),
    .append ⟨0⟩ .void (.jump ⟨1⟩), .append ⟨1⟩ (.scalar .i32) (.phi [⟨⟨0⟩, ⟨0⟩⟩]),
    .append ⟨1⟩ (.scalar .i32) (.binary .add ⟨3⟩ ⟨1⟩), .append ⟨1⟩ .bool (.binary .lt ⟨4⟩ ⟨1⟩),
    .append ⟨1⟩ .void (.branch ⟨5⟩ ⟨2⟩ ⟨3⟩), .append ⟨2⟩ (.scalar .i32) (.const (.int 9)),
    .append ⟨2⟩ (.scalar .i32) (.binary .add ⟨3⟩ ⟨7⟩), .append ⟨2⟩ .void (.jump ⟨1⟩),
    .addIncoming ⟨3⟩ ⟨2⟩ ⟨8⟩, .append ⟨3⟩ .void (.ret (some ⟨4⟩))].foldl build
      (.empty "counting" (.scalar .i32))

theorem counting_keeps_readings :
    counting.Consistent ∧ counting.isValid = true ∧ counting.Strict ∧
    ∃ r, counting.dominance 3 = .ok r ∧ r.isConverged = true ∧
      (counting.eliminateDominated r.value).1 = 2 ∧
      ∀ {α : Type} (m : Interpretation α) (world : Nat → ValueId → α) (s : Valuation α)
        (b : BlockId) (path : List BlockId), counting.flow.Walk ⟨0⟩ path b →
          (counting.eliminateDominated r.value).2.readings m path world none s =
            (counting.readings m path world none s).filter fun reading =>
              (counting.eliminateDominated r.value).2.hasValue reading.value := by
  have hConsistent : counting.Consistent := by decide +kernel
  have hValid : counting.isValid = true := by decide +kernel
  have hStrict : counting.Strict := by decide +kernel
  have hDom := dominance_eq (f := counting) (e := ⟨0⟩) rfl 3
  have hConverged : ((counting.flowFrom ⟨0⟩).dominators 3).isConverged = true := by decide +kernel
  refine ⟨hConsistent, hValid, hStrict, _, hDom, hConverged, by decide +kernel, ?_⟩
  intro α m world s b path w
  exact (eliminateDominated_keeps_readings counting hConsistent hValid hStrict hDom hConverged).2.2
    m world s ⟨0⟩ b path rfl w

end Dominated

end Func

end Midend
