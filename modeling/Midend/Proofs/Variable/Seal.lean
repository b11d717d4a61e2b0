import Mathlib.Logic.Relation
import Midend.Proofs.Variable.Merge

/-!
# What sealing a loop leaves

Sealing drops the phis of a loop that have one value only, one after the other. Dropping one puts
its value in its place everywhere, and that value may be another phi of the loop, which is dropped
later. So what is dropped leads from value to value until it comes to one that stays.

That it comes to an end is because every phi of the loop reads a value older than itself
(`Founded`): the definition from before the loop. Where a phi has one value only, that value is the
older one, so the way leads to older and older values. `Dropping` is what every removal keeps; from
it follows what the whole loop of removals leaves (`dropTrivial_dropping`).

* `sealLoop_drops_all_trivial`: what is gone, what is left, and what is current.
-/

namespace Midend

namespace Func

variable {f g : Func} {b x : BlockId} {i : Inst} {v phi value : ValueId} {ty : Ty}
  {incoming : List Incoming}

/-! ## Phis that read something older -/

/-- The value is a phi that reads a value older than itself. -/
def Founded (f : Func) (phi : ValueId) : Prop :=
  ∃ b, ∃ i ∈ f.code b, i.id = phi ∧ i.isPhi = true ∧ ∃ d ∈ i.op.operands, d.index < phi.index

theorem Founded.hasValue (h : Founded f phi) (hf : f.Consistent) : f.hasValue phi = true := by
  obtain ⟨b, i, hi, hId, -⟩ := h
  exact hf.hasValue_iff_code.mpr ⟨b, i, hi, hId⟩

/-- A phi may get more to read. -/
theorem Founded.mono (h : Founded f phi) (hCode : ∀ x, ∀ i ∈ f.code x, i.isPhi = true →
    ∃ j ∈ g.code x, j.id = i.id ∧ j.isPhi = true ∧ i.op.operands ⊆ j.op.operands) :
    Founded g phi := by
  obtain ⟨x, i, hi, hId, hPhi, d, hd, hLt⟩ := h
  obtain ⟨j, hj, hSame, hPhi, hReads⟩ := hCode x i hi hPhi
  exact ⟨x, j, hj, hSame.trans hId, hPhi, d, hReads hd, hLt⟩

theorem Founded.of_subset (h : Founded f phi) (hCode : ∀ x, ∀ i ∈ f.code x, i ∈ g.code x) :
    Founded g phi :=
  h.mono fun x i hi hPhi => ⟨i, hCode x i hi, rfl, hPhi, fun _ hd => hd⟩

theorem Founded.append (h : Founded f phi) (b : BlockId) (ty : Ty) (op : Op) :
    Founded (f.append b ty op).state phi := by
  rcases append_cases f b ty op with hEq | ⟨-, hApp⟩
  · rwa [hEq]
  · exact h.of_subset fun x i hi => hApp.mem_code.mpr (.inr hi)

theorem Founded.addIncoming (h : Founded f phi) (hf : f.Consistent) (psi : ValueId) (pred : BlockId)
    (v : ValueId) : Founded (f.addIncoming psi pred v).state phi := by
  rcases addIncoming_cases f psi pred v with hEq | ⟨-, -, b, hEq⟩
  · rwa [hEq]
  apply h.mono
  intro x i hi hPhi
  rw [hEq, code_rewrite rfl]
  split
  · rw [updateFirst_eq_map (hf.numbered.nodup x)]
    refine ⟨_, List.mem_map_of_mem hi, ?_⟩
    split
    · refine ⟨Inst.id_addIncoming, Inst.isPhi_addIncoming.trans hPhi, ?_⟩
      rw [Inst.operands_addIncoming hPhi]
      exact List.subset_append_left _ _
    · exact ⟨rfl, hPhi, fun _ hd => hd⟩
  · exact ⟨i, hi, rfl, hPhi, fun _ hd => hd⟩

theorem Founded.addParam (h : Founded f phi) (name : String) (ty : Ty) :
    Founded (f.addParam name ty).state phi := by
  unfold Func.addParam
  split
  · exact h
  · exact h

theorem Founded.createBlock (h : Founded f phi) (hf : f.Consistent) (label : String) :
    Founded (f.createBlock label).state phi := by
  rcases createBlock_grown hf label with hEq | hGrown
  · rwa [hEq]
  · apply h.of_subset
    intro x i hi
    rwa [hGrown.code_eq hf.arranged]

theorem Founded.build (h : Founded f phi) (hf : f.Consistent) (r : BuildRequest) :
    Founded (f.build r) phi := by
  cases r with
  | addParam name ty => exact h.addParam name ty
  | createBlock label => exact h.createBlock hf label
  | append b ty op => exact h.append b ty op
  | addIncoming psi pred v => exact h.addIncoming hf psi pred v

theorem Founded.foldl_build (h : Founded f phi) (hf : f.Consistent) (rs : List BuildRequest) :
    Founded (rs.foldl Func.build f) phi := by
  have hBoth := List.foldlRecOn (motive := fun f => f.Consistent ∧ Founded f phi) rs Func.build
    ⟨hf, h⟩ fun f hf r _ => ⟨hf.1.build r, hf.2.build hf.1 r⟩
  exact hBoth.2

theorem Consistent.founded_append (hf : f.Consistent) {p : Incoming} (hp : p ∈ incoming)
    (h : (f.append b ty (.phi incoming)).answer = .ok phi) :
    Founded (f.append b ty (.phi incoming)).state phi := by
  obtain ⟨rfl, hAccepts, hApp⟩ := append_of_answer h
  have hRead : p.value ∈ (Op.phi incoming).operands := List.mem_map_of_mem hp
  exact ⟨b, _, hApp.mem_code.mpr (.inl ⟨rfl, rfl⟩), rfl, rfl, p.value, hRead,
    hf.index_lt (hAccepts.operands p.value hRead)⟩

theorem exists_incoming_of_isPhi (h : i.isPhi = true) : ∃ incoming, i.op = .phi incoming := by
  rcases i with ⟨id, ty, c, op⟩
  cases op with
  | phi incoming => exact ⟨incoming, rfl⟩
  | _ => cases h

/-- A phi that reads something older and has not one value only has two. -/
theorem Founded.two_values (h : Founded f phi) (hf : f.Consistent)
    (hNone : f.trivialValue? phi = none) :
    ∃ i ∈ f.insts, i.id = phi ∧ i.isPhi = true ∧
      ∃ v ∈ i.op.operands, ∃ w ∈ i.op.operands, v ≠ phi ∧ w ≠ phi ∧ v ≠ w := by
  obtain ⟨b, i, hi, hId, hPhi, d, hd, hLt⟩ := h
  have hMem : i ∈ f.insts := (mem_insts hf.mem_layout).mpr ⟨b, hi⟩
  have hValue : f.value? phi = some i := (value?_eq_some_iff hf.values_nodup).mpr ⟨hMem, hId⟩
  have hOther : ∀ u, u ∈ i.op.operands.filter (· ≠ phi) ↔ u ∈ i.op.operands ∧ u ≠ phi := by
    intro u
    rw [List.mem_filter, decide_eq_true_eq]
  have hNe : d ≠ phi := by
    rintro rfl
    exact Nat.lt_irrefl _ hLt
  obtain ⟨incoming, hOp⟩ := exists_incoming_of_isPhi hPhi
  have hOperands : i.op.operands = incoming.map (·.value) := by
    rw [hOp]
    rfl
  rw [trivialValue?, hValue, Option.bind_some, hOp] at hNone
  dsimp only at hNone
  rw [← hOperands] at hNone
  refine ⟨i, hMem, hId, hPhi, ?_⟩
  split at hNone
  · rename_i hNil
    exact absurd ((hOther d).mpr ⟨hd, hNe⟩) (hNil ▸ List.not_mem_nil)
  rename_i v vs hFilter
  split at hNone
  · cases hNone
  rename_i hAll
  obtain ⟨w, hw, hDiffer⟩ : ∃ w ∈ vs, w ≠ v := by simpa using hAll
  rw [hFilter] at hOther
  obtain ⟨hv, hvNe⟩ := (hOther v).mp List.mem_cons_self
  obtain ⟨hwMem, hwNe⟩ := (hOther w).mp (List.mem_cons_of_mem v hw)
  exact ⟨v, hv, w, hwMem, hvNe, hwNe, hDiffer.symm⟩

/-- The one value of a phi is the one that is older, and the phi reads it. -/
theorem OneValued.mem_older (ho : OneValued f phi value b i) (hf : f.Consistent)
    (h : Founded f phi) : value ∈ i.op.operands ∧ value.index < phi.index := by
  obtain ⟨c, j, hj, hId, -, d, hd, hLt⟩ := h
  obtain rfl := (hf.numbered.eq_of_id_eq hj ho.mem_code (hId.trans ho.id_eq.symm)).2
  rcases ho.operand d hd with rfl | rfl
  · exact absurd hLt (Nat.lt_irrefl _)
  · exact ⟨hd, hLt⟩

/-- Where the older value is the phi that is dropped, what comes in its place is older still. -/
theorem Founded.drop {psi : ValueId} (h : Founded f psi) (hNe : psi ≠ phi)
    (hs : Spared f (fun v => v = phi) (standIn phi value) g) (hOlder : value.index < phi.index) :
    Founded g psi := by
  obtain ⟨x, j, hj, hId, hPhi, d, hd, hLt⟩ := h
  have hj' := (mem_code_dropped hs).mpr ⟨j, hj, by rwa [hId], rfl⟩
  have hReads : standIn phi value d ∈ (j.mapOperands (standIn phi value)).op.operands :=
    Inst.mem_operands_mapOperands hd
  refine ⟨x, _, hj', hId, (Op.isPhi_mapOperands _ _).trans hPhi, _, hReads, ?_⟩
  by_cases hEq : d = phi
  · rw [hEq, standIn_self]
    rw [hEq] at hLt
    omega
  · rwa [standIn_of_ne hEq]

end Func

/-! ## New versions of several variables -/

namespace VarTable

variable {t : VarTable} {name : String} {d : ValueId} {l : List (String × ValueId)}

/-- The table with a new version for each of the listed variables. -/
def defineAll (t : VarTable) (l : List (String × ValueId)) : VarTable :=
  l.foldl (fun t p => t.define p.1 p.2) t

theorem sameAt_defineAll (h : name ∉ l.map (·.1)) : SameAt t (t.defineAll l) name := by
  induction l generalizing t with
  | nil => exact .refl t name
  | cons p l ih =>
    rw [List.map_cons, List.mem_cons, not_or] at h
    exact (sameAt_define t p.2 h.1).trans (ih h.2)

theorem currentDefinition?_defineAll (hNodup : (l.map (·.1)).Nodup) (h : (name, d) ∈ l) :
    (t.defineAll l).currentDefinition? name = some d := by
  induction l generalizing t with
  | nil => exact absurd h List.not_mem_nil
  | cons p l ih =>
    obtain ⟨hNot, hNodup⟩ := List.nodup_cons.mp hNodup
    rcases List.mem_cons.mp h with rfl | h
    · have hRest : SameAt (t.define name d) ((t.define name d).defineAll l) name :=
        sameAt_defineAll hNot
      exact hRest.currentDefinition?_eq.trans (currentDefinition?_define_self t name d)
    · exact ih hNodup h

section Map

variable {p : String × ValueId} (g : ValueId → ValueId)

theorem sameAt_defineAll_map (h : name ∉ l.map (·.1)) :
    SameAt t (t.defineAll (l.map fun p => (p.1, g p.2))) name := by
  apply sameAt_defineAll
  rwa [List.map_map]

theorem currentDefinition?_defineAll_map (hNodup : (l.map (·.1)).Nodup) (hp : p ∈ l) :
    (t.defineAll (l.map fun p => (p.1, g p.2))).currentDefinition? p.1 = some (g p.2) := by
  apply currentDefinition?_defineAll
  · rwa [List.map_map]
  · exact List.mem_map_of_mem hp

end Map

theorem redirect_eq (t : VarTable) (old new : ValueId) :
    t.redirect old new = t.defineAll
      ((t.current.keys.filter fun name => t.currentDefinition? name = some old).map (·, new)) := by
  rw [defineAll, List.foldl_map]
  rfl

theorem mem_keys_of_currentDefinition? (h : t.currentDefinition? name = some d) :
    name ∈ t.current.keys := by
  obtain ⟨version, hVersion, -⟩ := Option.bind_eq_some_iff.mp h
  exact SortedMap.mem_keys_iff.mpr ⟨version, hVersion⟩

/-- Redirecting puts the new value in the place of the old one, and does nothing else. -/
theorem currentDefinition?_redirect (t : VarTable) (old new : ValueId) (name : String) :
    (t.redirect old new).currentDefinition? name =
      (t.currentDefinition? name).map (Func.standIn old new) := by
  rw [redirect_eq]
  generalize hNames :
    (t.current.keys.filter fun name => t.currentDefinition? name = some old) = names
  have hFst : (names.map fun name => (name, new)).map (·.1) = names := by
    rw [List.map_map]
    exact List.map_id' names
  have hMem : ∀ x, x ∈ names ↔ t.currentDefinition? x = some old := by
    intro x
    rw [← hNames, List.mem_filter, decide_eq_true_eq]
    exact ⟨And.right, fun h => ⟨mem_keys_of_currentDefinition? h, h⟩⟩
  by_cases hName : t.currentDefinition? name = some old
  · have hNodup : ((names.map fun name => (name, new)).map (·.1)).Nodup := by
      rw [hFst, ← hNames]
      exact t.current.nodup_keys.filter _
    have hIn : (name, new) ∈ names.map fun name => (name, new) :=
      List.mem_map_of_mem ((hMem name).mpr hName)
    rw [currentDefinition?_defineAll hNodup hIn, hName, Option.map_some, Func.standIn_self]
  · have hNot : name ∉ (names.map fun name => (name, new)).map (·.1) := by
      rwa [hFst, hMem]
    rw [(sameAt_defineAll hNot).currentDefinition?_eq]
    cases hd : t.currentDefinition? name with
    | none => rfl
    | some d =>
      rw [hd, Option.some.injEq] at hName
      rw [Option.map_some, Func.standIn_of_ne hName]

end VarTable

namespace Scope

open Func VarTable

variable {s t : Scope} {header preheader latch : BlockId} {l : LoopPhis} {phis live : List ValueId}
  {forwarded : SortedMap ValueId ValueId} {v w phi value : ValueId}

/-! ## The phis of a loop that is opened -/

theorem openPhis_founded {defined made : List (String × ValueId)} (hs : s.func.Consistent)
    (h : openPhis header preheader defined s = .ok made t) :
    t.func.Consistent ∧ (∀ psi, Founded s.func psi → Founded t.func psi) ∧
      (∀ p ∈ made, Founded t.func p.2) ∧
      made.map (·.2.index) = List.range' s.func.ids.nextValue made.length := by
  induction defined generalizing s made with
  | nil =>
    cases h
    exact ⟨hs, fun _ => id, fun p hp => absurd hp List.not_mem_nil, rfl⟩
  | cons d rest ih =>
    obtain ⟨phi, mid, others, hDefine, hRest, rfl⟩ := openPhis_cons_eq_ok h
    obtain ⟨ty, -, hAnswer, rfl⟩ := definePhi_eq_ok hDefine
    obtain ⟨hLast, hKeeps, hFounded, hIds⟩ := ih (hs.append _ _ _) hRest
    obtain ⟨hPhi, -, hApp⟩ := append_of_answer hAnswer
    refine ⟨hLast, fun psi hPsi => hKeeps psi (hPsi.append _ _ _), ?_, ?_⟩
    · intro p hp
      rcases List.mem_cons.mp hp with rfl | hp
      · exact hKeeps _ (hs.founded_append List.mem_cons_self hAnswer)
      · exact hFounded p hp
    · rw [List.map_cons, hIds, hPhi]
      dsimp only
      rw [hApp.nextValue_eq]
      rfl

theorem names_defined (s : Scope) : (s.defined.map (·.1)).Sublist s.vars.current.keys := by
  unfold defined
  induction s.vars.current.keys with
  | nil => exact List.Sublist.refl []
  | cons name names ih =>
    rw [List.filterMap_cons]
    cases hd : s.vars.currentDefinition? name with
    | none => exact ih.cons name
    | some d => exact ih.cons_cons name

theorem openLoop_founded (hs : s.func.Consistent)
    (h : (s.openLoop header preheader).answer? = some l) :
    (s.openLoop header preheader).state.func.Consistent ∧
      (∀ p ∈ l.phis, Founded (s.openLoop header preheader).state.func p.2) ∧
      (l.phis.map (·.1)).Nodup ∧ (l.phis.map (·.2)).Nodup := by
  obtain ⟨hLast, -, hFounded, hIds⟩ := openPhis_founded hs (openLoop_eq_ok h)
  refine ⟨hLast, hFounded, ?_, ?_⟩
  · rw [names_openPhis (openLoop_eq_ok h)]
    exact s.vars.current.nodup_keys.sublist s.names_defined
  · have hNodup : ((l.phis.map (·.2)).map (·.index)).Nodup := by
      rw [List.map_map]
      show (l.phis.map (·.2.index)).Nodup
      rw [hIds]
      exact List.nodup_range'
    exact hNodup.of_map _

theorem completePhis_founded {rest : List (String × ValueId)} (hs : s.func.Consistent)
    (h : completePhis latch rest s = .ok () t) :
    t.func.Consistent ∧ ∀ psi, Founded s.func psi → Founded t.func psi := by
  induction rest generalizing s with
  | nil =>
    cases h
    exact ⟨hs, fun _ => id⟩
  | cons p rest ih =>
    rw [completePhis] at h
    split at h
    · cases h
    rename_i g hAdd
    have hState := congrArg Outcome.state hAdd
    dsimp only at hState
    obtain ⟨hLast, hKeeps⟩ := ih (s := { s with func := g }) (hState ▸ hs.addIncoming _ _ _) h
    exact ⟨hLast, fun psi hPsi => hKeeps psi (hState ▸ hPsi.addIncoming hs _ _ _)⟩

/-! ## Dropping a phi -/

/-- What holds while phis are dropped. What has been dropped is gone from the function, nothing
reads it and nothing is defined by it, and what stands in its place is older. The others are still
there and read something older. -/
structure Dropping (phis live : List ValueId) (forwarded : SortedMap ValueId ValueId) (s : Scope) :
    Prop where
  consistent : s.func.Consistent
  nodup : live.Nodup
  mem_phis : ∀ v, v ∈ phis ↔ v ∈ live ∨ ∃ w, forwarded.get? v = some w
  founded : ∀ phi ∈ live, Founded s.func phi
  gone : ∀ v w, forwarded.get? v = some w → s.func.hasValue v = false
  unread : ∀ b, ∀ i ∈ s.func.code b, ∀ v ∈ i.op.operands, forwarded.get? v = none
  current : ∀ name v, s.vars.currentDefinition? name = some v → forwarded.get? v = none
  older : ∀ v w, forwarded.get? v = some w → w.index < v.index

theorem dropping_start (hs : s.func.Consistent) (hNodup : phis.Nodup)
    (hFounded : ∀ phi ∈ phis, Founded s.func phi) : Dropping phis phis ∅ s where
  consistent := hs
  nodup := hNodup
  mem_phis v := by simp
  founded := hFounded
  gone v w h := by cases h
  unread _ _ _ _ _ := rfl
  current _ _ _ := rfl
  older v w h := by cases h

theorem Dropping.forward (h : Dropping phis live forwarded s) (hLive : phi ∈ live)
    (hTrivial : s.func.trivialValue? phi = some value) :
    Dropping phis (live.erase phi) (forwarded.insert phi value) (s.forward phi value) := by
  have hf := h.consistent
  have hg : (s.forward phi value).func.Consistent := (hf.removeValue phi).replaceUses phi value
  obtain ⟨b, i, ho⟩ := hf.oneValued hTrivial
  have hSpared : Spared s.func (fun v => v = phi) (standIn phi value) (s.forward phi value).func :=
    ho.spared hf
  obtain ⟨hRead, hLt⟩ := ho.mem_older hf (h.founded phi hLive)
  -- what comes in the place of the phi was read by it, so it has not been dropped either
  have hStays : ∀ v, forwarded.get? v = none →
      (forwarded.insert phi value).get? (standIn phi value v) = none := by
    intro v hv
    by_cases hEq : v = phi
    · rw [hEq, standIn_self, SortedMap.get?_insert_of_ne _ _ ho.value_ne]
      exact h.unread b i ho.mem_code value hRead
    · rw [standIn_of_ne hEq, SortedMap.get?_insert_of_ne _ _ hEq, hv]
  exact {
    consistent := hg
    nodup := h.nodup.erase phi
    mem_phis := by
      intro v
      rw [h.mem_phis, h.nodup.mem_erase_iff, SortedMap.get?_insert]
      by_cases hEq : v = phi
      · simp [hEq, hLive]
      · simp [hEq]
    founded := by
      intro psi hPsi
      obtain ⟨hNe, hPsi⟩ := h.nodup.mem_erase_iff.mp hPsi
      exact (h.founded psi hPsi).drop hNe hSpared hLt
    gone := by
      intro v w hGet
      rw [Bool.eq_false_iff]
      intro hThere
      obtain ⟨hNe, hWas⟩ := hasValue_dropped hSpared hf hg hThere
      rw [SortedMap.get?_insert_of_ne _ _ hNe] at hGet
      exact absurd hWas (Bool.eq_false_iff.mp (h.gone v w hGet))
    unread := by
      intro x j' hj' v hv
      obtain ⟨j, hj, -, rfl⟩ := (mem_code_dropped hSpared).mp hj'
      rw [Inst.mapOperands, Op.operands_mapOperands] at hv
      obtain ⟨u, hu, rfl⟩ := List.mem_map.mp hv
      exact hStays u (h.unread x j hj u hu)
    current := by
      intro name v hv
      have hRedirect := currentDefinition?_redirect s.vars phi value name
      obtain ⟨u, hu, rfl⟩ := Option.map_eq_some_iff.mp (hRedirect.symm.trans hv)
      exact hStays u (h.current name u hu)
    older := by
      intro v w hGet
      rw [SortedMap.get?_insert] at hGet
      split at hGet
      · rename_i hEq
        obtain rfl := Option.some.inj hGet
        rwa [hEq]
      · exact h.older v w hGet }

/-- Enough steps are made to drop all that can be dropped. -/
theorem dropTrivial_dropping {fuel : Nat} (h : Dropping phis live forwarded s)
    (hFuel : live.length ≤ fuel) :
    ∃ live', Dropping phis live' (dropTrivial fuel live forwarded s).1
        (dropTrivial fuel live forwarded s).2 ∧
      ∀ phi ∈ live', (dropTrivial fuel live forwarded s).2.func.trivialValue? phi = none := by
  induction fuel generalizing live forwarded s with
  | zero =>
    refine ⟨live, h, fun phi hPhi => ?_⟩
    have hLength := List.length_pos_of_mem hPhi
    omega
  | succ fuel ih =>
    rw [dropTrivial]
    split
    · rename_i hNone
      refine ⟨live, h, fun phi hPhi => ?_⟩
      exact Option.map_eq_none_iff.mp (List.findSome?_eq_none_iff.mp hNone phi hPhi)
    · rename_i phi value hFound
      obtain ⟨psi, hPsi, hEq⟩ := List.exists_of_findSome?_eq_some hFound
      obtain ⟨w, hTrivial, hPair⟩ := Option.map_eq_some_iff.mp hEq
      cases hPair
      apply ih (h.forward hPsi hTrivial)
      rw [List.length_erase_of_mem hPsi]
      omega

/-! ## Following what stands in the place of a value -/

theorem follow_of_none (fuel : Nat) (h : forwarded.get? v = none) :
    follow forwarded fuel v = v := by
  cases fuel with
  | zero => rfl
  | succ fuel => rw [follow, h]

theorem reaches_follow (forwarded : SortedMap ValueId ValueId) (fuel : Nat) (v : ValueId) :
    Relation.ReflTransGen (fun v w => forwarded.get? v = some w) v (follow forwarded fuel v) := by
  induction fuel generalizing v with
  | zero => exact .refl
  | succ fuel ih =>
    rw [follow]
    split
    · exact .refl
    · rename_i w hGet
      exact .head hGet (ih w)

section Follow

variable (hOlder : ∀ v w, forwarded.get? v = some w → w.index < v.index)
include hOlder

theorem index_lt_of_reaches
    (h : Relation.TransGen (fun v w => forwarded.get? v = some w) v w) : w.index < v.index := by
  induction h with
  | single hGet => exact hOlder _ _ hGet
  | tail _ hGet ih => exact Nat.lt_trans (hOlder _ _ hGet) ih

theorem length_older_lt (h : forwarded.get? v = some w) :
    (forwarded.keys.filter (·.index ≤ w.index)).length <
      (forwarded.keys.filter (·.index ≤ v.index)).length := by
  have hLt := hOlder v w h
  have hNodup : (v :: forwarded.keys.filter (·.index ≤ w.index)).Nodup := by
    refine List.nodup_cons.mpr ⟨fun hMem => ?_, forwarded.nodup_keys.filter _⟩
    have hLe := of_decide_eq_true (List.mem_filter.mp hMem).2
    omega
  have hSubset : v :: forwarded.keys.filter (·.index ≤ w.index) ⊆
      forwarded.keys.filter (·.index ≤ v.index) := by
    intro u hu
    rw [List.mem_filter, decide_eq_true_eq]
    rcases List.mem_cons.mp hu with rfl | hu
    · exact ⟨SortedMap.mem_keys_iff.mpr ⟨w, h⟩, Nat.le_refl _⟩
    · obtain ⟨hKey, hLe⟩ := List.mem_filter.mp hu
      have hLe := of_decide_eq_true hLe
      exact ⟨hKey, by omega⟩
  exact hNodup.length_le_of_subset hSubset

/-- The way ends: there are fewer entries for older values than for the value itself. -/
theorem get?_follow {fuel : Nat}
    (hFuel : (forwarded.keys.filter (·.index ≤ v.index)).length ≤ fuel) :
    forwarded.get? (follow forwarded fuel v) = none := by
  induction fuel generalizing v with
  | zero =>
    cases hGet : forwarded.get? v with
    | none => exact hGet
    | some w =>
      have hLess := length_older_lt hOlder hGet
      omega
  | succ fuel ih =>
    rw [follow]
    split
    · rename_i hGet
      exact hGet
    · rename_i w hGet
      have hLess := length_older_lt hOlder hGet
      apply ih
      omega

end Follow

/-! ## The whole loop -/

/-- What stands in the place of each phi that sealing the loop drops. -/
def replacements (s : Scope) (l : LoopPhis) (latch : BlockId) : SortedMap ValueId ValueId :=
  (dropTrivial l.phis.length (l.phis.map (·.2)) ∅ (completePhis latch l.phis s).state).1

/-- The second value stands in the place of the first when the loop is sealed. -/
def Replaced (s : Scope) (l : LoopPhis) (latch : BlockId) (v w : ValueId) : Prop :=
  (s.replacements l latch).get? v = some w

/-- The phis of the loop that are not in the function. -/
def missingPhis (l : LoopPhis) (f : Func) : List ValueId :=
  (l.phis.map (·.2)).filter fun phi => !f.hasValue phi

/-- Sealing completes the phis, drops what it can, and makes new versions of all variables. -/
theorem sealLoop_eq_ok {k : Nat} (h : (t.sealLoop l latch).answer? = some k) :
    ∃ mid, completePhis latch l.phis t = .ok () mid ∧
      t.replacements l latch = (dropTrivial l.phis.length (l.phis.map (·.2)) ∅ mid).1 ∧
      k = (t.replacements l latch).size ∧
      (t.sealLoop l latch).state.func =
        (dropTrivial l.phis.length (l.phis.map (·.2)) ∅ mid).2.func ∧
      (t.sealLoop l latch).state.vars =
        (dropTrivial l.phis.length (l.phis.map (·.2)) ∅ mid).2.vars.defineAll (l.phis.map fun p =>
          (p.1, follow (t.replacements l latch) (t.replacements l latch).size p.2)) := by
  unfold replacements
  unfold sealLoop at h ⊢
  rcases hComplete : completePhis latch l.phis t with ⟨answer, mid⟩
  rw [hComplete] at h
  cases answer with
  | error e => cases h
  | ok done =>
    refine ⟨mid, rfl, rfl, (Option.some.inj h).symm, rfl, ?_⟩
    rw [defineAll, List.foldl_map]
    rfl

section Whole

variable (h : Dropping (l.phis.map (·.2)) live forwarded s)
include h

theorem Dropping.mem_missingPhis_iff :
    v ∈ missingPhis l s.func ↔ ∃ w, forwarded.get? v = some w := by
  rw [missingPhis, List.mem_filter, h.mem_phis, Bool.not_eq_true']
  constructor
  · intro hv
    obtain ⟨hLive | hGone, hNot⟩ := hv
    · rw [(h.founded v hLive).hasValue h.consistent] at hNot
      cases hNot
    · exact hGone
  · intro hGone
    obtain ⟨w, hGet⟩ := hGone
    exact ⟨.inr ⟨w, hGet⟩, h.gone v w hGet⟩

theorem Dropping.not_mem_missingPhis (hv : forwarded.get? v = none) : v ∉ missingPhis l s.func := by
  rw [h.mem_missingPhis_iff]
  intro hGone
  obtain ⟨w, hGet⟩ := hGone
  rw [hv] at hGet
  cases hGet

theorem Dropping.length_missingPhis (hNodup : (l.phis.map (·.2)).Nodup) :
    (missingPhis l s.func).length = forwarded.size := by
  have hPerm : (missingPhis l s.func).Perm forwarded.keys := by
    apply (List.perm_ext_iff_of_nodup (hNodup.filter _) forwarded.nodup_keys).mpr
    intro v
    rw [SortedMap.mem_keys_iff]
    exact h.mem_missingPhis_iff
  rw [hPerm.length_eq, SortedMap.length_keys]

theorem Dropping.get?_of_hasValue (hThere : s.func.hasValue v = true) :
    forwarded.get? v = none := by
  cases hGet : forwarded.get? v with
  | none => rfl
  | some w =>
    rw [h.gone v w hGet] at hThere
    cases hThere

theorem Dropping.mem_live (hv : v ∈ l.phis.map (·.2)) (hThere : s.func.hasValue v = true) :
    v ∈ live := by
  have hNone := h.get?_of_hasValue hThere
  apply ((h.mem_phis v).mp hv).resolve_right
  intro hGone
  obtain ⟨w, hGet⟩ := hGone
  rw [hNone] at hGet
  cases hGet

theorem Dropping.follow_stays (v : ValueId) :
    follow forwarded forwarded.size v ∉ missingPhis l s.func := by
  apply h.not_mem_missingPhis
  apply get?_follow h.older
  rw [← SortedMap.length_keys]
  exact List.length_filter_le _ _

end Whole

theorem exists_dropping {rs : List BuildRequest} {mid : Scope} (hs : s.func.Consistent)
    (hOpen : (s.openLoop header preheader).answer? = some l)
    (ht : t.func = rs.foldl Func.build (s.openLoop header preheader).state.func)
    (hComplete : completePhis latch l.phis t = .ok () mid) :
    ∃ live, Dropping (l.phis.map (·.2)) live
        (dropTrivial l.phis.length (l.phis.map (·.2)) ∅ mid).1
        (dropTrivial l.phis.length (l.phis.map (·.2)) ∅ mid).2 ∧
      ∀ phi ∈ live, (dropTrivial l.phis.length (l.phis.map (·.2)) ∅ mid).2.func.trivialValue? phi =
        none := by
  obtain ⟨hOpened, hFounded, -, hNodup⟩ := openLoop_founded hs hOpen
  have hBuilt : t.func.Consistent := by
    rw [ht]
    exact List.foldlRecOn rs Func.build hOpened fun f hf r _ => hf.build r
  obtain ⟨hMid, hKeeps⟩ := completePhis_founded hBuilt hComplete
  -- neither the body nor the second pair takes away what a phi reads
  have hStart : Dropping (l.phis.map (·.2)) (l.phis.map (·.2)) ∅ mid := by
    apply dropping_start hMid hNodup
    intro phi hPhi
    obtain ⟨p, hp, rfl⟩ := List.mem_map.mp hPhi
    apply hKeeps
    rw [ht]
    exact (hFounded p hp).foldl_build hOpened rs
  apply dropTrivial_dropping hStart
  rw [List.length_map]

/-- **Sealing a loop drops every phi that has one value only.** The replacements lead to no value a
second time, so each leads to an end. As many phis are gone as the answer says, and they are those
that are replaced; no instruction reads one of them, and no variable is defined by one. Every phi
that is left reads two values besides itself. A variable of the loop is defined by its phi if that
is left, and otherwise by the value that the replacements lead to, which is not one that is gone. -/
theorem sealLoop_drops_all_trivial (s t : Scope) (header preheader latch : BlockId) (l : LoopPhis)
    (rs : List BuildRequest) (k : Nat) (hs : s.func.Consistent)
    (hOpen : (s.openLoop header preheader).answer? = some l)
    (ht : t.func = rs.foldl Func.build (s.openLoop header preheader).state.func)
    (hSeal : (t.sealLoop l latch).answer? = some k) :
    (∀ v, ¬ Relation.TransGen (t.Replaced l latch) v v) ∧
    (l.phis.map (·.2)).Nodup ∧
    (missingPhis l (t.sealLoop l latch).state.func).length = k ∧
    (∀ v, v ∈ missingPhis l (t.sealLoop l latch).state.func ↔ ∃ w, t.Replaced l latch v w) ∧
    (∀ i ∈ (t.sealLoop l latch).state.func.insts, ∀ v ∈ i.op.operands,
      v ∉ missingPhis l (t.sealLoop l latch).state.func) ∧
    (∀ name v, (t.sealLoop l latch).state.vars.currentDefinition? name = some v →
      v ∉ missingPhis l (t.sealLoop l latch).state.func) ∧
    (∀ phi ∈ l.phis.map (·.2), (t.sealLoop l latch).state.func.hasValue phi = true →
      ∃ i ∈ (t.sealLoop l latch).state.func.insts, i.id = phi ∧ i.isPhi = true ∧
        ∃ v ∈ i.op.operands, ∃ w ∈ i.op.operands, v ≠ phi ∧ w ≠ phi ∧ v ≠ w) ∧
    ∀ p ∈ l.phis, ∃ v, (t.sealLoop l latch).state.vars.currentDefinition? p.1 = some v ∧
      v ∉ missingPhis l (t.sealLoop l latch).state.func ∧
      Relation.ReflTransGen (t.Replaced l latch) p.2 v ∧
      ((t.sealLoop l latch).state.func.hasValue p.2 = true → v = p.2) := by
  obtain ⟨-, -, hNames, hNodup⟩ := openLoop_founded hs hOpen
  obtain ⟨mid, hComplete, hRecord, rfl, hFunc, hVars⟩ := sealLoop_eq_ok hSeal
  obtain ⟨live, hDrop, hLeft⟩ := exists_dropping hs hOpen ht hComplete
  rw [← hRecord] at hDrop
  rw [hFunc, hVars]
  generalize (dropTrivial l.phis.length (l.phis.map (·.2)) ∅ mid).2 = last at hDrop hLeft ⊢
  have hCurrent := fun p => currentDefinition?_defineAll_map (t := last.vars) (p := p)
    (follow (t.replacements l latch) (t.replacements l latch).size) hNames
  refine ⟨?_, hNodup, hDrop.length_missingPhis hNodup, fun v => hDrop.mem_missingPhis_iff,
    ?_, ?_, ?_, ?_⟩
  · intro v hCycle
    exact Nat.lt_irrefl _ (index_lt_of_reaches hDrop.older hCycle)
  · intro i hi v hv
    obtain ⟨b, hCode⟩ := (mem_insts hDrop.consistent.mem_layout).mp hi
    exact hDrop.not_mem_missingPhis (hDrop.unread b i hCode v hv)
  · intro name v hv
    by_cases hName : name ∈ l.phis.map (·.1)
    · obtain ⟨p, hp, rfl⟩ := List.mem_map.mp hName
      rw [hCurrent p hp] at hv
      cases hv
      exact hDrop.follow_stays p.2
    · rw [(sameAt_defineAll_map _ hName).currentDefinition?_eq] at hv
      exact hDrop.not_mem_missingPhis (hDrop.current name v hv)
  · intro phi hPhi hThere
    have hLive := hDrop.mem_live hPhi hThere
    exact (hDrop.founded phi hLive).two_values hDrop.consistent (hLeft phi hLive)
  · intro p hp
    refine ⟨_, hCurrent p hp, hDrop.follow_stays p.2, reaches_follow _ _ p.2, fun hThere => ?_⟩
    exact follow_of_none _ (hDrop.get?_of_hasValue hThere)

/-- Three variables before a loop, two of them with the same value. -/
def circling : Scope where
  func := [.createBlock "entry", .createBlock "head", .createBlock "exit",
    .append ⟨0⟩ (.scalar .i32) (.const (.int 1)), .append ⟨0⟩ (.scalar .i32) (.const (.int 2)),
    .append ⟨0⟩ .void (.jump ⟨1⟩)].foldl build (.empty "circling" (.scalar .i32))
  vars := ((VarTable.define {} "a" ⟨0⟩).define "b" ⟨0⟩).define "c" ⟨1⟩

/-- Their phis. -/
def circlingPhis : LoopPhis := ⟨⟨1⟩, [("a", ⟨3⟩), ("b", ⟨4⟩), ("c", ⟨5⟩)]⟩

/-- The body of the loop adds the second variable to the third. -/
def circle : List BuildRequest :=
  [.append ⟨1⟩ (.scalar .i32) (.binary .add ⟨5⟩ ⟨4⟩), .append ⟨1⟩ .bool (.binary .lt ⟨6⟩ ⟨3⟩),
    .append ⟨1⟩ .void (.branch ⟨7⟩ ⟨1⟩ ⟨2⟩), .append ⟨2⟩ .void (.ret (some ⟨3⟩))]

/-- The loop before it is sealed. The first variable is set to what the second is, which stays as it
is; so the phi of the first can be dropped once that of the second is. -/
def circled : Scope where
  func := circle.foldl build (circling.openLoop ⟨1⟩ ⟨0⟩).state.func
  vars := ((circling.openLoop ⟨1⟩ ⟨0⟩).state.vars.define "a" ⟨4⟩).define "c" ⟨6⟩

theorem circled_drops_all_trivial :
    (circled.sealLoop circlingPhis ⟨1⟩).answer? = some 2 ∧
    (missingPhis circlingPhis (circled.sealLoop circlingPhis ⟨1⟩).state.func).length = 2 ∧
    (∃ w, circled.Replaced circlingPhis ⟨1⟩ ⟨3⟩ w) ∧
    (∀ i ∈ (circled.sealLoop circlingPhis ⟨1⟩).state.func.insts, ⟨4⟩ ∉ i.op.operands) ∧
    (∃ i ∈ (circled.sealLoop circlingPhis ⟨1⟩).state.func.insts, i.id = ⟨5⟩ ∧ i.isPhi = true ∧
      ∃ v ∈ i.op.operands, ∃ w ∈ i.op.operands, v ≠ ⟨5⟩ ∧ w ≠ ⟨5⟩ ∧ v ≠ w) := by
  have hOpen : (circling.openLoop ⟨1⟩ ⟨0⟩).answer? = some circlingPhis := by decide +kernel
  have hSeal : (circled.sealLoop circlingPhis ⟨1⟩).answer? = some 2 := by decide +kernel
  obtain ⟨-, -, hCount, hGone, hUnread, -, hLeft, -⟩ := sealLoop_drops_all_trivial circling circled
    ⟨1⟩ ⟨0⟩ ⟨1⟩ circlingPhis circle 2 (by decide +kernel) hOpen rfl hSeal
  refine ⟨hSeal, hCount, (hGone ⟨3⟩).mp (by decide +kernel), fun i hi hRead => ?_,
    hLeft ⟨5⟩ (by decide) (by decide +kernel)⟩
  exact hUnread i hi ⟨4⟩ hRead (by decide +kernel)

end Scope

end Midend
