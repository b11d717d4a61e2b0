import Midend.Proofs.Validity.Construction

/-!
# Flags that lag behind

The examination finds a flag that does not agree exactly where there is one
(`mismatch_iff`). Appending sets a flag from the operands, once; a phi can lose its own
later, when it gets a pair, and whatever reads the phi keeps the flag that it has. The instructions
that lag behind in this way (`Lags`) are the only ones whose flags can be wrong (`FlaggedBut`).
-/

namespace Midend

/-! ## What is found -/

theorem isStructural_of_mem_labelFaults {seen : List String} {blk : Block} {e : Fault}
    (he : e ∈ labelFaults seen blk) : e.isStructural = true := by
  unfold labelFaults at he
  split at he
  · rw [List.mem_singleton.mp he]
    rfl
  split at he
  · rw [List.mem_singleton.mp he]
    rfl
  · exact absurd he List.not_mem_nil

theorem isStructural_of_mem_nameFaults {seen : List ValueId} {l : List Inst} {e : ValueId × Fault}
    (he : e ∈ nameFaults seen l) : e.2.isStructural = true := by
  induction l generalizing seen with
  | nil => exact absurd he List.not_mem_nil
  | cons i l ih =>
    rw [nameFaults, List.mem_append] at he
    rcases he with he | he
    · split at he
      · rw [List.mem_singleton.mp he]
        rfl
      · exact absurd he List.not_mem_nil
    · exact ih he

theorem isStructural_of_mem_orderFaults {after : Bool} {l : List Inst} {e : ValueId × Fault}
    (he : e ∈ orderFaults after l) : e.2.isStructural = true := by
  induction l generalizing after with
  | nil => exact absurd he List.not_mem_nil
  | cons i l ih =>
    rw [orderFaults, List.mem_append, List.mem_append] at he
    rcases he with (he | he) | he
    · split at he
      · rw [List.mem_singleton.mp he]
        rfl
      · exact absurd he List.not_mem_nil
    · split at he
      · rw [List.mem_singleton.mp he]
        rfl
      · exact absurd he List.not_mem_nil
    · exact ih he

namespace Func

variable {f g : Func} {b x : BlockId} {i j : Inst} {v phi : ValueId} {blk : Block} {e : Fault}
  {p : Incoming} {phis : List ValueId}

theorem isStructural_of_mem_edgeFaults (he : e ∈ f.edgeFaults blk) : e.isStructural = true := by
  rw [edgeFaults, List.mem_append, List.mem_append] at he
  rcases he with (he | he) | he
  · split at he
    · exact absurd he List.not_mem_nil
    · rw [List.mem_singleton.mp he]
      rfl
  · obtain ⟨s, -, rfl⟩ := List.mem_map.mp he
    rfl
  · obtain ⟨s, -, rfl⟩ := List.mem_map.mp he
    rfl

/-- What is found in a block is a fault of its structure or of one of its instructions. -/
theorem isStructural_or_of_mem_blockViolations {labels : List String} {names : List ValueId}
    {w : Violation} (hw : w ∈ f.blockViolations labels names blk) :
    w.fault.isStructural = true ∨ ∃ i ∈ blk.insts, w.fault ∈ f.instFaults blk i := by
  simp only [blockViolations, List.mem_append] at hw
  rcases hw with (((hw | hw) | hw) | hw) | hw
  · obtain ⟨e, he, rfl⟩ := List.mem_map.mp hw
    exact .inl (isStructural_of_mem_labelFaults he)
  · obtain ⟨e, he, rfl⟩ := List.mem_map.mp hw
    exact .inl (isStructural_of_mem_nameFaults he)
  · obtain ⟨e, he, rfl⟩ := List.mem_map.mp hw
    exact .inl (isStructural_of_mem_orderFaults he)
  · obtain ⟨e, he, rfl⟩ := List.mem_map.mp hw
    exact .inl (isStructural_of_mem_edgeFaults he)
  · obtain ⟨i, hi, hw⟩ := List.mem_flatMap.mp hw
    obtain ⟨e, he, rfl⟩ := List.mem_map.mp hw
    exact .inr ⟨i, hi, he⟩

theorem isStructural_or_of_mem_blocksViolations {labels : List String} {names : List ValueId}
    {bs : List Block} {w : Violation} (hw : w ∈ f.blocksViolations labels names bs) :
    w.fault.isStructural = true ∨ ∃ blk ∈ bs, ∃ i ∈ blk.insts, w.fault ∈ f.instFaults blk i := by
  induction bs generalizing labels names with
  | nil => exact absurd hw List.not_mem_nil
  | cons blk bs ih =>
    rw [blocksViolations, List.mem_append] at hw
    rcases hw with hw | hw
    · refine (isStructural_or_of_mem_blockViolations hw).imp_right fun h => ?_
      exact ⟨blk, List.mem_cons_self, h⟩
    · refine (ih hw).imp_right fun h => ?_
      obtain ⟨blk', hBlk', h⟩ := h
      exact ⟨blk', List.mem_cons_of_mem _ hBlk', h⟩

theorem exists_mem_blocksViolations (labels : List String) (names : List ValueId) {bs : List Block}
    (hBlk : blk ∈ bs) (hi : i ∈ blk.insts) (he : e ∈ f.instFaults blk i) :
    ∃ w ∈ f.blocksViolations labels names bs, w.fault = e := by
  induction bs generalizing labels names with
  | nil => exact absurd hBlk List.not_mem_nil
  | cons blk' bs ih =>
    rw [blocksViolations]
    rcases List.mem_cons.mp hBlk with rfl | hBlk
    · refine ⟨⟨f.name, some blk.id, some i.id, e⟩, List.mem_append_left _ ?_, rfl⟩
      exact List.mem_append_right _ (List.mem_flatMap.mpr ⟨i, hi, List.mem_map.mpr ⟨e, he, rfl⟩⟩)
    · obtain ⟨w, hw, hEq⟩ := ih (blk'.label :: labels) (blk'.insts.map (·.id) ++ names) hBlk
      exact ⟨w, List.mem_append_right _ hw, hEq⟩

theorem comptimeMismatch_mem_instFaults :
    Fault.comptimeMismatch ∈ f.instFaults blk i ↔ ¬ f.FlagRight i := by
  rw [instFaults, List.mem_append, ← comptimeAgrees_iff]
  constructor
  · intro he
    rcases he with he | he
    · -- what comes before are faults of what is mentioned, of names and of pairs
      rw [List.mem_append, List.mem_append] at he
      rcases he with (he | he) | he
      · obtain ⟨v, -, hv⟩ := List.mem_map.mp he
        cases hv
      · obtain ⟨c, -, hc⟩ := List.mem_map.mp he
        cases hc
      · split at he
        · split at he <;> simp at he
        · split at he <;> simp at he
        · cases isOfPairs_of_mem_phiFaults he
        · exact absurd he List.not_mem_nil
    · split at he
      · exact absurd he List.not_mem_nil
      · assumption
  · intro hNot
    rw [if_neg hNot]
    exact .inr (List.mem_singleton.mpr rfl)

theorem mismatch_iff :
    f.examine.has (· = .comptimeMismatch) = true ↔ ∃ i ∈ f.insts, ¬ f.FlagRight i := by
  rw [Report.has, List.any_eq_true]
  simp only [decide_eq_true_eq]
  constructor
  · rintro ⟨w, hw, hEq⟩
    rw [examine, List.mem_append] at hw
    rcases hw with hw | hw
    · split at hw
      · rw [List.mem_singleton.mp hw] at hEq
        cases hEq
      · exact absurd hw List.not_mem_nil
    split at hw
    · exact absurd hw List.not_mem_nil
    rcases List.mem_append.mp hw with hw | hw
    · unfold entryFaults at hw
      split at hw
      · rw [List.mem_singleton.mp hw] at hEq
        cases hEq
      split at hw
      · exact absurd hw List.not_mem_nil
      · rw [List.mem_singleton.mp hw] at hEq
        cases hEq
    · rcases isStructural_or_of_mem_blocksViolations hw with hKind | ⟨blk, hBlk, i, hi, he⟩
      · rw [hEq] at hKind
        cases hKind
      · rw [hEq, comptimeMismatch_mem_instFaults] at he
        exact ⟨i, List.mem_flatMap.mpr ⟨blk, hBlk, hi⟩, he⟩
  · rintro ⟨i, hi, hNot⟩
    obtain ⟨blk, hBlk, hi⟩ := List.mem_flatMap.mp hi
    obtain ⟨w, hw, hEq⟩ := exists_mem_blocksViolations [] [] hBlk hi
      (comptimeMismatch_mem_instFaults.mpr hNot)
    refine ⟨w, List.mem_append_right _ ?_, hEq⟩
    have hLayout : f.layout.isEmpty ≠ true := by
      obtain ⟨c, hc, -⟩ := mem_blocks_iff.mp hBlk
      intro hEmpty
      rw [List.isEmpty_iff.mp hEmpty] at hc
      exact List.not_mem_nil hc
    rw [if_neg hLayout]
    exact List.mem_append_right _ hw

theorem Consistent.mismatch_eq_false_iff (hf : f.Consistent) :
    f.examine.has (· = .comptimeMismatch) = false ↔ f.Flagged := by
  rw [← Bool.not_eq_true, mismatch_iff]
  constructor
  · intro h b i hi
    by_contra hNot
    exact h ⟨i, (mem_insts hf.mem_layout).mpr ⟨b, hi⟩, hNot⟩
  · rintro h ⟨i, hi, hNot⟩
    obtain ⟨b, hi⟩ := (mem_insts hf.mem_layout).mp hi
    exact hNot (h b i hi)

/-! ## Flags that lag behind -/

theorem flagRight_iff_of_unknown (hv : v ∈ i.op.operands) (h : f.isComptime v = false) :
    f.FlagRight i ↔ i.comptime = false := by
  have hNot : ¬ ∀ u ∈ i.op.operands, f.isComptime u = true := by
    intro hAll
    rw [hAll v hv] at h
    cases h
  rw [← Bool.not_eq_true]
  rcases i with ⟨id, ty, known, op⟩
  cases op with
  | const | slot | alloca | jump => exact absurd hv List.not_mem_nil
  | binary | unary | call | convert => exact iff_false_right hNot
  | phi incoming => exact imp_iff_not hNot
  | load | store | branch | ret => exact (Bool.not_eq_true known).symm.to_iff

theorem flagRight_of_isPhi (hPhi : i.isPhi = true) :
    f.FlagRight i ↔ (i.comptime = true → ∀ v ∈ i.op.operands, f.isComptime v = true) := by
  rcases i with ⟨id, ty, known, op⟩
  cases op <;> first | exact Iff.rfl | cases hPhi

/-- An instruction is taken to be known and reads one of the given phis, which was known in the
first function and is not in the second. -/
def Lags (f : Func) (phis : List ValueId) (g : Func) (i : Inst) : Prop :=
  i.comptime = true ∧
    ∃ phi ∈ phis, f.isComptime phi = true ∧ g.isComptime phi = false ∧ phi ∈ i.op.operands

/-- The flags of the second function agree, but for those that lag behind. -/
def FlaggedBut (f : Func) (phis : List ValueId) (g : Func) : Prop :=
  ∀ b, ∀ i ∈ g.code b, g.FlagRight i ∨ Lags f phis g i

theorem FlaggedBut.mismatch_iff (h : FlaggedBut f phis g) (hg : g.Consistent) :
    g.examine.has (· = .comptimeMismatch) = true ↔
      ∃ phi ∈ phis, f.isComptime phi = true ∧ g.isComptime phi = false ∧
        ∃ i ∈ g.insts, i.comptime = true ∧ phi ∈ i.op.operands := by
  rw [Func.mismatch_iff]
  constructor
  · rintro ⟨i, hi, hNot⟩
    obtain ⟨b, hCode⟩ := (mem_insts hg.mem_layout).mp hi
    obtain ⟨hKnown, phi, hMem, hWas, hIs, hReads⟩ := (h b i hCode).resolve_left hNot
    exact ⟨phi, hMem, hWas, hIs, i, hi, hKnown, hReads⟩
  · rintro ⟨phi, -, -, hIs, i, hi, hKnown, hReads⟩
    refine ⟨i, hi, fun hRight => ?_⟩
    rw [(flagRight_iff_of_unknown hReads hIs).mp hRight] at hKnown
    cases hKnown

/-! ## Completing a phi -/

/-- The second function is the first with one more pair of a phi. -/
structure Completed (f : Func) (phi : ValueId) (p : Incoming) (g : Func) : Prop where
  isPhi : ∀ b, ∀ i ∈ f.code b, i.id = phi → i.isPhi = true
  hasValue : f.hasValue p.value = true
  code_eq : ∀ x, g.code x =
    (f.code x).map fun i => if i.id = phi then i.addIncoming p (f.isComptime p.value) else i

theorem Consistent.completed (hf : f.Consistent) {pred : BlockId}
    (h : (f.addIncoming phi pred v).isOk = true) :
    Completed f phi ⟨pred, v⟩ (f.addIncoming phi pred v).state := by
  obtain ⟨hValue, b, ⟨i, hi, hId, hPhi⟩, hEq⟩ := addIncoming_of_isOk h
  refine ⟨?_, hValue, ?_⟩
  · intro x j hj hjId
    rwa [(hf.numbered.eq_of_id_eq hj hi (hjId.trans hId.symm)).2]
  · intro x
    rw [hEq, code_rewrite rfl]
    split
    · exact updateFirst_eq_map (hf.numbered.nodup x)
    · rename_i hx
      have hSame : ∀ j ∈ f.code x, (if j.id = phi then
          j.addIncoming ⟨pred, v⟩ (f.isComptime v) else j) = j := by
        intro j hj
        apply if_neg
        intro hjId
        exact hx (hf.numbered.inj x b j hj i hi (hjId.trans hId.symm))
      rw [List.map_congr_left hSame, List.map_id']

namespace Completed

/-- An instruction is an old one, or the phi with its new pair. -/
theorem mem_code_cases (h : Completed f phi p g) (hi : i ∈ g.code x) :
    (i ∈ f.code x ∧ i.id ≠ phi) ∨ ∃ j ∈ f.code x, j.id = phi ∧ j.isPhi = true ∧
      i = j.addIncoming p (f.isComptime p.value) := by
  rw [h.code_eq, List.mem_map] at hi
  obtain ⟨j, hj, rfl⟩ := hi
  split
  · rename_i hId
    exact .inr ⟨j, hj, hId, h.isPhi x j hj hId, rfl⟩
  · rename_i hId
    exact .inl ⟨hj, hId⟩

theorem mem_code_of_ne (h : Completed f phi p g) (hi : i ∈ f.code x) (hId : i.id ≠ phi) :
    i ∈ g.code x := by
  rw [h.code_eq, List.mem_map]
  exact ⟨i, hi, if_neg hId⟩

theorem mem_code_phi (h : Completed f phi p g) (hi : i ∈ f.code x) (hId : i.id = phi) :
    i.addIncoming p (f.isComptime p.value) ∈ g.code x := by
  rw [h.code_eq, List.mem_map]
  exact ⟨i, hi, if_pos hId⟩

variable (h : Completed f phi p g) (hf : f.Consistent) (hg : g.Consistent)
include h hf hg

theorem isComptime_iff :
    g.isComptime v = true ↔
      f.isComptime v = true ∧ (v = phi → f.isComptime p.value = true) := by
  rw [hf.isComptime_iff_code, hg.isComptime_iff_code]
  constructor
  · rintro ⟨x, i, hi, hId, hKnown⟩
    rcases h.mem_code_cases hi with ⟨hi, hNe⟩ | ⟨j, hj, hjId, hPhi, rfl⟩
    · exact ⟨⟨x, i, hi, hId, hKnown⟩, fun hEq => absurd (hId.trans hEq) hNe⟩
    · rw [Inst.comptime_addIncoming hPhi, Bool.and_eq_true] at hKnown
      exact ⟨⟨x, j, hj, Inst.id_addIncoming.symm.trans hId, hKnown.1⟩, fun _ => hKnown.2⟩
  · rintro ⟨⟨x, i, hi, hId, hKnown⟩, hValue⟩
    by_cases hPhi : i.id = phi
    · refine ⟨x, _, h.mem_code_phi hi hPhi, Inst.id_addIncoming.trans hId, ?_⟩
      rw [Inst.comptime_addIncoming (h.isPhi x i hi hPhi), hKnown, hValue (hId.symm.trans hPhi)]
      rfl
    · exact ⟨x, i, h.mem_code_of_ne hi hPhi, hId, hKnown⟩

theorem isComptime_of_ne (hv : v ≠ phi) : g.isComptime v = f.isComptime v := by
  rw [Bool.eq_iff_iff, h.isComptime_iff hf hg]
  exact and_iff_left fun hEq => absurd hEq hv

theorem hasValue_iff : g.hasValue v = true ↔ f.hasValue v = true := by
  rw [hf.hasValue_iff_code, hg.hasValue_iff_code]
  constructor
  · rintro ⟨x, i, hi, hId⟩
    rcases h.mem_code_cases hi with ⟨hi, -⟩ | ⟨j, hj, -, -, rfl⟩
    · exact ⟨x, i, hi, hId⟩
    · exact ⟨x, j, hj, Inst.id_addIncoming.symm.trans hId⟩
  · rintro ⟨x, i, hi, hId⟩
    by_cases hPhi : i.id = phi
    · exact ⟨x, _, h.mem_code_phi hi hPhi, Inst.id_addIncoming.trans hId⟩
    · exact ⟨x, i, h.mem_code_of_ne hi hPhi, hId⟩

theorem lags {base : Func} (hi : Lags base phis f i) : Lags base phis g i := by
  obtain ⟨hKnown, psi, hPsi, hWas, hIs, hReads⟩ := hi
  refine ⟨hKnown, psi, hPsi, hWas, ?_, hReads⟩
  rw [Bool.eq_false_iff] at hIs ⊢
  exact fun h' => hIs ((h.isComptime_iff hf hg).mp h').1

/-- Where a phi that has been completed is not read, or has stayed what it was, flags agree as
before. -/
theorem flagRight_or_lags {base : Func} (hRight : f.FlagRight i) (hMem : phi ∈ phis)
    (hBase : f.isComptime phi = true → base.isComptime phi = true) :
    g.FlagRight i ∨ Lags base phis g i := by
  by_cases hFell : phi ∈ i.op.operands ∧ f.isComptime phi = true ∧ g.isComptime phi = false
  · obtain ⟨hReads, hWas, hIs⟩ := hFell
    cases hKnown : i.comptime with
    | true => exact .inr ⟨hKnown, phi, hMem, hBase hWas, hIs, hReads⟩
    | false => exact .inl ((flagRight_iff_of_unknown hReads hIs).mpr hKnown)
  · refine .inl ((flagAgrees_congr fun v hv => ?_).mpr hRight)
    by_cases hEq : v = phi
    · subst hEq
      refine ⟨fun hKnown => ((h.isComptime_iff hf hg).mp hKnown).1, fun hKnown => ?_⟩
      by_contra hNot
      exact hFell ⟨hv, hKnown, (Bool.not_eq_true _).mp hNot⟩
    · rw [h.isComptime_of_ne hf hg hEq]

/-- A flag that agreed still does, or it lags behind the phi that has been completed. -/
theorem flaggedBut {base : Func} (hBut : FlaggedBut base phis f) (hMem : phi ∈ phis)
    (hBase : f.isComptime phi = true → base.isComptime phi = true) : FlaggedBut base phis g := by
  intro x i hi
  rcases h.mem_code_cases hi with ⟨hi, -⟩ | ⟨j, hj, hId, hPhi, rfl⟩
  · rcases hBut x i hi with hRight | hLags
    · exact h.flagRight_or_lags hf hg hRight hMem hBase
    · exact .inr (h.lags hf hg hLags)
  · -- the phi is known if it was and its new value is
    have hPhi' : (j.addIncoming p (f.isComptime p.value)).isPhi = true := by
      rwa [Inst.isPhi_addIncoming]
    rcases hBut x j hj with hRight | hLags
    · left
      rw [flagRight_of_isPhi hPhi', Inst.comptime_addIncoming hPhi, Inst.operands_addIncoming hPhi,
        Bool.and_eq_true]
      rintro ⟨hKnown, hValue⟩ u hu
      apply (h.isComptime_iff hf hg).mpr
      refine ⟨?_, fun _ => hValue⟩
      rcases List.mem_append.mp hu with hu | hu
      · exact (flagRight_of_isPhi hPhi).mp hRight hKnown u hu
      · rwa [List.mem_singleton.mp hu]
    · obtain ⟨hKnown, psi, hPsi, hWas, hIs, hReads⟩ := h.lags hf hg hLags
      have hReads' : psi ∈ (j.addIncoming p (f.isComptime p.value)).op.operands := by
        rw [Inst.operands_addIncoming hPhi]
        exact List.mem_append_left _ hReads
      cases hNow : (j.addIncoming p (f.isComptime p.value)).comptime with
      | true => exact .inr ⟨hNow, psi, hPsi, hWas, hIs, hReads'⟩
      | false => exact .inl ((flagRight_iff_of_unknown hReads' hIs).mpr hNow)

end Completed

theorem Consistent.mismatch_addIncoming_iff (hf : f.Consistent) {pred : BlockId}
    (hAgree : f.examine.has (· = .comptimeMismatch) = false)
    (hOk : (f.addIncoming phi pred v).isOk = true) :
    (f.addIncoming phi pred v).state.examine.has (· = .comptimeMismatch) = true ↔
      f.isComptime phi = true ∧ f.isComptime v = false ∧
        ∃ i ∈ f.insts, i.id ≠ phi ∧ i.comptime = true ∧ phi ∈ i.op.operands := by
  have hg := hf.addIncoming phi pred v
  have h := hf.completed hOk
  generalize (f.addIncoming phi pred v).state = g at *
  have hFlagged := hf.mismatch_eq_false_iff.mp hAgree
  have hBut : FlaggedBut f [phi] g :=
    h.flaggedBut hf hg (fun b i hi => .inl (hFlagged b i hi)) (List.mem_singleton.mpr rfl) id
  rw [hBut.mismatch_iff hg]
  constructor
  · rintro ⟨psi, hPsi, hWas, hIs, i, hi, hKnown, hReads⟩
    obtain rfl := List.mem_singleton.mp hPsi
    have hValue : f.isComptime v = false := by
      rw [Bool.eq_false_iff, Ne, h.isComptime_iff hf hg] at hIs
      exact Bool.eq_false_iff.mpr fun hYes => hIs ⟨hWas, fun _ => hYes⟩
    obtain ⟨b, hCode⟩ := (mem_insts hg.mem_layout).mp hi
    have hNe : i.id ≠ psi := by
      rintro rfl
      rw [hg.isComptime_eq hCode, hKnown] at hIs
      cases hIs
    have hOld : i ∈ f.code b := by
      rcases h.mem_code_cases hCode with ⟨hOld, -⟩ | ⟨j, -, hId, -, rfl⟩
      · exact hOld
      · exact absurd (Inst.id_addIncoming.trans hId) hNe
    exact ⟨hWas, hValue, i, (mem_insts hf.mem_layout).mpr ⟨b, hOld⟩, hNe, hKnown, hReads⟩
  · rintro ⟨hWas, hValue, i, hi, hNe, hKnown, hReads⟩
    obtain ⟨b, hCode⟩ := (mem_insts hf.mem_layout).mp hi
    have hIs : g.isComptime phi = false := by
      rw [Bool.eq_false_iff, Ne, h.isComptime_iff hf hg, hValue]
      exact fun hBoth => Bool.noConfusion (hBoth.2 rfl)
    have hCode' := h.mem_code_of_ne hCode hNe
    exact ⟨phi, List.mem_singleton.mpr rfl, hWas, hIs, i, (mem_insts hg.mem_layout).mpr ⟨b, hCode'⟩,
      hKnown, hReads⟩

end Func

end Midend
