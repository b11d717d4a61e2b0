import Midend.Proofs.Func.Lawful

/-!
# Exchanging terminators

A new terminator changes neither what a function holds nor what its blocks compute, so everything
but the pairs of phis stays as it should be (`Exchanged.listed`).
-/

namespace Midend

namespace Func

variable {f g : Func} {b c x : BlockId} {i new : Inst} {front : List Inst} {v : ValueId}

namespace Exchanged

/-- An instruction that is left stands where it stood. -/
theorem code_cases (h : Exchanged f b front new g) {earlier later : List Inst}
    (hCode : g.code x = earlier ++ i :: later) :
    (∃ later', f.code x = earlier ++ i :: later') ∨ (x = b ∧ i = new ∧ earlier = front) := by
  by_cases hx : x = b
  · rw [hx, h.code_self] at hCode
    rcases append_eq_append_cons hCode with ⟨rest, rfl, -⟩ | ⟨rest, rfl, hEq⟩
    · left
      rcases h.code_before with hEq | ⟨old, hEq, -⟩
      · exact ⟨rest, hx ▸ hEq⟩
      · exact ⟨rest ++ [old], by simp [hx, hEq]⟩
    · obtain ⟨rfl, hEq⟩ | ⟨rest, rfl, hEq⟩ := List.append_eq_cons_iff.mp hEq.symm
      · exact .inr ⟨hx, (List.cons.inj hEq).1.symm, by simp⟩
      · simp at hEq
  · exact .inl ⟨later, by rw [← hCode, h.code_of_ne x hx]⟩

theorem mem_code (h : Exchanged f b front new g) (hi : i ∈ g.code x) :
    i ∈ f.code x ∨ (x = b ∧ i = new) := by
  obtain ⟨earlier, later, hCode⟩ := List.append_of_mem hi
  rcases h.code_cases hCode with ⟨later', hCode'⟩ | ⟨hx, hNew, -⟩
  · exact .inl (by simp [hCode'])
  · exact .inr ⟨hx, hNew⟩

theorem mem_code_of_open (h : Exchanged f b front new g) (hTerm : i.isTerminator = false) :
    i ∈ g.code x ↔ i ∈ f.code x := by
  constructor
  · intro hi
    rcases h.mem_code hi with hi | ⟨-, rfl⟩
    · exact hi
    · rw [h.new_terminator] at hTerm
      cases hTerm
  · intro hi
    by_cases hx : x = b
    · rw [hx, h.code_self]
      rw [hx] at hi
      rcases h.code_before with hEq | ⟨old, hEq, hOld⟩
      · exact List.mem_append_left _ (hEq ▸ hi)
      · rw [hEq, List.mem_append, List.mem_singleton] at hi
        rcases hi with hi | rfl
        · exact List.mem_append_left _ hi
        · rw [hOld] at hTerm
          cases hTerm
    · rwa [h.code_of_ne x hx]

theorem computes_iff (h : Exchanged f b front new g) : g.Computes x v ↔ f.Computes x v := by
  constructor
  · exact fun hv => hv.of_like fun i hi hTerm _ => ⟨i, (h.mem_code_of_open hTerm).mp hi, .refl i⟩
  · exact fun hv => hv.of_like fun i hi hTerm _ => ⟨i, (h.mem_code_of_open hTerm).mpr hi, .refl i⟩

theorem holds_iff (h : Exchanged f b front new g) {ty : Ty} {known : Bool} :
    f.Holds v ty known ↔ g.Holds v ty known := by
  constructor
  · exact fun hv => hv.of_like fun x i hi hTerm _ =>
      ⟨x, i, (h.mem_code_of_open hTerm).mpr hi, .refl i⟩
  · exact fun hv => hv.of_like fun x i hi hTerm _ =>
      ⟨x, i, (h.mem_code_of_open hTerm).mp hi, .refl i⟩

theorem front_prefix (h : Exchanged f b front new g) : front <+: f.code b := by
  rcases h.code_before with hEq | ⟨old, hEq, -⟩
  · exact hEq ▸ List.prefix_rfl
  · exact ⟨[old], hEq.symm⟩

theorem reads_new (h : Exchanged f b front new g)
    (hNew : ∀ v ∈ new.op.operands, ∃ ty known, f.Holds v ty known) : new.ReadsFrom g.Holds := by
  have hTerm := h.new_terminator
  have hKnown := h.new_known
  refine ⟨?_, ?_, ?_, missingName?_of_isTerminator hTerm⟩
  · intro v hv
    obtain ⟨ty, known, hHeld⟩ := hNew v hv
    exact ⟨ty, known, h.holds_iff.mp hHeld⟩
  · intro hPhi
    rw [isPhi_eq_false_of_isTerminator hTerm] at hPhi
    cases hPhi
  · rcases new with ⟨id, ty, known, op⟩
    cases op <;> first | exact hKnown | cases hTerm

theorem sequenced (h : Exchanged f b front new g) (hf : f.Sequenced) : g.Sequenced where
  ordered x := by
    by_cases hx : x = b
    · rw [hx, h.code_self, List.pairwise_append]
      refine ⟨(hf.ordered b).sublist h.front_prefix.sublist, List.pairwise_singleton _ _, ?_⟩
      intro i hi j hj
      obtain rfl := List.mem_singleton.mp hj
      refine ⟨fun hPhi => ?_, h.front_open i hi⟩
      rw [isPhi_eq_false_of_isTerminator h.new_terminator] at hPhi
      cases hPhi
    · rw [h.code_of_ne x hx]
      exact hf.ordered x
  mem_succs x y := by
    rw [h.mem_succs]
    by_cases hx : x = b
    · rw [hx, h.code_self]
      constructor
      · rintro (⟨-, hy⟩ | ⟨hne, -⟩)
        · exact ⟨new, by simp, hy⟩
        · exact absurd rfl hne
      · rintro ⟨i, hi, hy⟩
        rcases List.mem_append.mp hi with hi | hi
        · have hTerm := isTerminator_of_mem_targets hy
          rw [h.front_open i hi] at hTerm
          cases hTerm
        · exact .inl ⟨rfl, List.mem_singleton.mp hi ▸ hy⟩
    · rw [h.code_of_ne x hx, hf.mem_succs]
      simp [hx]

theorem numbered (h : Exchanged f b front new g) (hf : f.Numbered) : g.Numbered := by
  apply hf.of_new h.new_id h.nextValue_eq fun _ _ => h.mem_code
  intro x
  by_cases hx : x = b
  · rw [hx, h.code_self, List.map_append, List.nodup_append]
    refine ⟨(hf.nodup b).sublist (h.front_prefix.sublist.map _), List.nodup_singleton _, ?_⟩
    intro v hv w hw hEq
    obtain ⟨i, hi, rfl⟩ := List.mem_map.mp hv
    obtain rfl := List.mem_singleton.mp hw
    exact hf.id_ne_next (h.front_prefix.subset hi) (hEq.trans h.new_id)
  · rw [h.code_of_ne x hx]
    exact hf.nodup x

theorem listed (h : Exchanged f b front new g) (hf : f.Listed)
    (hNew : ∀ v ∈ new.op.operands, ∃ ty known, f.Holds v ty known) : g.Listed where
  toNumbered := h.numbered hf.toNumbered
  toSequenced := h.sequenced hf.toSequenced
  reads x i hi := by
    rcases h.mem_code hi with hi | ⟨-, rfl⟩
    · exact (hf.reads x i hi).congr fun v _ _ _ => h.holds_iff
    · exact h.reads_new hNew

end Exchanged

/-- In a function whose operands name no terminators, taking a terminator away leaves every operand
of it. -/
theorem hasValue_dropTerminator (hf : f.Framed) {old : Inst} (hCode : f.code b = front ++ [old])
    {ty : Ty} {known : Bool} (hOld : old.isTerminator = true) (hv : f.Holds v ty known) :
    (f.dropTerminator b old).hasValue v = true := by
  obtain ⟨hFrame, -, hSelf, hOther, -⟩ := dropTerminator_spec hCode
  obtain ⟨x, i, hi, hTerm, hId, -, -⟩ := hv
  refine hasValue_iff.mpr ⟨i, mem_insts_iff.mpr ⟨x, ?_, ?_⟩, hId⟩
  · rw [hFrame.layout_eq, hf.mem_layout]
    exact hasBlock_of_mem_code hi
  · by_cases hx : x = b
    · rw [hx, hCode, List.mem_append, List.mem_singleton] at hi
      rcases hi with hi | rfl
      · rwa [hx, hSelf]
      · rw [hOld] at hTerm
        cases hTerm
    · rwa [hOther x hx]

end Func

end Midend
