import Mathlib.Data.List.Find
import Midend.Flow.Trace
import Midend.Proofs.Shape.History

/-!
# Runs of a function

What can be seen of an execution is the trace of a path. `Func.Runs` says it without the path, from
the block where the execution is and the one that it came from, so that two functions are compared
by an induction on one run that builds another: `Func.Shows.stop` and `Func.Shows.step` are the two
moves. `Func.Retraces` is what a change of blocks has to keep in order to be repeated.
-/

namespace Midend

/-! ## What is seen of an instruction -/

namespace Inst

variable {i j : Inst} {came next : Option BlockId} {b : BlockId}

theorem observed_of_not_isPhi (h : i.isPhi = false) (came came' next : Option BlockId) :
    i.observed came next = i.observed came' next := by
  rcases i with ⟨id, ty, known, op⟩
  cases op <;> first | rfl | cases h

theorem observed_of_not_isTerminator (h : i.isTerminator = false) (came next next' : Option BlockId) :
    i.observed came next = i.observed came next' := by
  rcases i with ⟨id, ty, known, op⟩
  cases op <;> first | rfl | cases h

theorem observed_jump {t : BlockId} (h : i.op = .jump t) (came next : Option BlockId) :
    i.observed came next = [] := by
  rw [observed, h]

/-- Nothing is seen of a terminator that can only lead to one block. -/
theorem observed_of_only_target (h : ∀ c, c ∈ i.op.targets ↔ c = b) (came next : Option BlockId) :
    i.observed came next = [] := by
  have hb := (h b).mpr rfl
  rcases i with ⟨id, ty, known, op⟩
  cases op with
  | jump t => rfl
  | branch c t e =>
    have ht : t = b := (h t).mp (by simp only [Op.targets]; split <;> simp)
    have he : e = b := (h e).mp (by simp only [Op.targets]; split <;> simp_all)
    cases next with
    | none => rfl
    | some n => exact if_pos (ht.trans he.symm)
  | _ => exact absurd hb List.not_mem_nil

/-- The same side is seen of a terminator that leads to renamed blocks. -/
theorem observed_of_mapBlocks {r : BlockId → BlockId} (hOp : j.op = i.op.mapBlocks r)
    (hLeads : b ∈ i.op.targets)
    (hInj : ∀ x ∈ i.op.targets, ∀ y ∈ i.op.targets, r x = r y → x = y)
    (hNext : ∀ n, next = some n → n ∈ i.op.targets) (came : Option BlockId) :
    j.observed came (next.map r) = i.observed came next := by
  rw [observed, hOp]
  rcases i with ⟨id, ty, known, op⟩
  cases op with
  | jump t => rfl
  | branch c t e =>
    have ht : t ∈ (Op.branch c t e).targets := by simp only [Op.targets]; split <;> simp
    have he : e ∈ (Op.branch c t e).targets := by simp only [Op.targets]; split <;> simp_all
    cases next with
    | none => rfl
    | some n =>
      have hSame : r t = r e ↔ t = e := ⟨hInj t ht e he, congrArg r⟩
      have hFirst : r n = r t ↔ n = t := ⟨hInj n (hNext n rfl) t ht, congrArg r⟩
      simp only [Op.mapBlocks, observed, Option.map_some, hSame, hFirst]
  | _ => exact absurd hLeads List.not_mem_nil

/-- A phi that has been told of a renamed block takes the value that it took. -/
theorem observed_moveIncoming {old new : BlockId} (hNew : i.isPhi = true → ¬ new ∈ i.op.blockRefs)
    (hCame : came ≠ some new) (next : Option BlockId) :
    (i.moveIncoming old new).observed (came.map fun b => if b = old then new else b) next =
      i.observed came next := by
  rcases i with ⟨id, ty, known, op⟩
  cases op with
  | phi incoming =>
    cases came with
    | none => rfl
    | some c =>
      have hc : c ≠ new := fun hEq => hCame (congrArg some hEq)
      have hFind : (incoming.map fun p : Incoming =>
            { p with block := if p.block = old then new else p.block }).find?
              (·.block = if c = old then new else c) =
          (incoming.find? (·.block = c)).map fun p =>
            { p with block := if p.block = old then new else p.block } := by
        rw [List.find?_map]
        refine congrArg _ (List.find?_congr fun p hp => ?_)
        have hp' : p.block ≠ new := fun hEq => hNew rfl (hEq ▸ List.mem_map_of_mem hp)
        simp only [Function.comp_apply, decide_eq_decide]
        grind
      have hTook : ∀ o : Option Incoming, (o.map fun p : Incoming =>
          { p with block := if p.block = old then new else p.block }).map (·.value) =
            o.map (·.value) := fun o => by cases o <;> rfl
      exact congrArg (fun v => [Observation.took id v]) ((congrArg _ hFind).trans (hTook _))
  | _ => rfl

end Inst

namespace Func

variable {f g h : Func} {b c e x : BlockId} {came : Option BlockId} {seen longer : List Observation}

theorem observedAt_eq (f : Func) (b : BlockId) (came next : Option BlockId) :
    f.observedAt b came next = (f.code b).flatMap (·.observed came next) := by
  unfold observedAt code
  cases f.block? b with
  | none => rfl
  | some blk => exact List.append_nil _

theorem observedAt_of_no_phi (hPhi : ∀ i ∈ f.code b, i.isPhi = false)
    (came came' next : Option BlockId) : f.observedAt b came next = f.observedAt b came' next := by
  rw [observedAt_eq, observedAt_eq]
  exact List.flatMap_congr fun i hi => Inst.observed_of_not_isPhi (hPhi i hi) came came' next

/-- Of a block whose terminator is not seen, only what comes before it is. -/
theorem observedAt_of_last {front : List Inst} {old : Inst} (hCode : f.code b = front ++ [old])
    (hFront : ∀ i ∈ front, i.isTerminator = false) (came : Option BlockId) {next : Option BlockId}
    (hOld : old.observed came next = []) :
    f.observedAt b came next = front.flatMap (·.observed came none) := by
  rw [observedAt_eq, hCode, List.flatMap_append, List.flatMap_singleton, hOld, List.append_nil]
  exact List.flatMap_congr fun i hi => Inst.observed_of_not_isTerminator (hFront i hi) came next none

/-! ## Runs -/

/-- What is seen of an execution that has come from one block to another and goes on. -/
inductive Runs (f : Func) : Option BlockId → BlockId → List Observation → Prop where
  | stop (came : Option BlockId) (b : BlockId) : Runs f came b (f.observedAt b came none)
  | step {came : Option BlockId} {b next : BlockId} {seen : List Observation}
      (edge : next ∈ f.succs b) (rest : Runs f (some b) next seen) :
      Runs f came b (f.observedAt b came (some next) ++ seen)

theorem runs_iff :
    f.Runs came b seen ↔ ∃ path c, f.flow.Walk b path c ∧ f.trace came path = seen := by
  constructor
  · intro hRun
    induction hRun with
    | stop came b => exact ⟨[b], b, .nil b, List.append_nil _⟩
    | @step came b next seen edge rest ih =>
      obtain ⟨path, c, hWalk, hTrace⟩ := ih
      refine ⟨b :: path, c, .cons edge hWalk, ?_⟩
      have hHead : path.head? = some next := by cases hWalk <;> rfl
      rw [trace, hHead, hTrace]
  · rintro ⟨path, c, hWalk, rfl⟩
    induction hWalk generalizing came with
    | nil b =>
      have hEq : f.trace came [b] = f.observedAt b came none := List.append_nil _
      exact hEq ▸ .stop came b
    | @cons b next c path edge rest ih =>
      have hHead : path.head? = some next := by cases rest <;> rfl
      rw [trace, hHead]
      exact .step edge ih

/-- An execution can begin with the given observations from here. -/
def Shows (f : Func) (came : Option BlockId) (b : BlockId) (seen : List Observation) : Prop :=
  ∃ longer, f.Runs came b longer ∧ seen <+: longer

namespace Shows

theorem mono (hLonger : f.Shows came b longer) (hSeen : seen <+: longer) : f.Shows came b seen := by
  obtain ⟨whole, hRun, hPrefix⟩ := hLonger
  exact ⟨whole, hRun, hSeen.trans hPrefix⟩

theorem stop (f : Func) (came : Option BlockId) (b : BlockId) :
    f.Shows came b (f.observedAt b came none) :=
  ⟨_, .stop came b, List.prefix_rfl⟩

theorem nil (f : Func) (came : Option BlockId) (b : BlockId) : f.Shows came b [] :=
  (stop f came b).mono List.nil_prefix

theorem step {next : BlockId} (edge : next ∈ f.succs b) (rest : f.Shows (some b) next seen) :
    f.Shows came b (f.observedAt b came (some next) ++ seen) := by
  obtain ⟨longer, hRun, hPrefix⟩ := rest
  exact ⟨_, .step edge hRun, (List.prefix_append_right_inj _).mpr hPrefix⟩

/-- A block without a phi does not see where control came from. -/
theorem of_no_phi (hShows : f.Shows came b seen) (hPhi : ∀ i ∈ f.code b, i.isPhi = false)
    (came' : Option BlockId) : f.Shows came' b seen := by
  obtain ⟨longer, hRun, hPrefix⟩ := hShows
  refine ⟨longer, ?_, hPrefix⟩
  cases hRun with
  | stop => exact observedAt_of_no_phi hPhi came came' none ▸ .stop came' b
  | step edge rest => exact observedAt_of_no_phi hPhi came came' _ ▸ .step edge rest

end Shows

theorem observable_iff : f.Observable seen ↔ ∃ e, f.entry = some e ∧ f.Shows none e seen := by
  constructor
  · rintro ⟨e, path, b, hEntry, hWalk, hPrefix⟩
    exact ⟨e, hEntry, _, runs_iff.mpr ⟨path, b, hWalk, rfl⟩, hPrefix⟩
  · rintro ⟨e, hEntry, longer, hRun, hPrefix⟩
    obtain ⟨path, b, hWalk, rfl⟩ := runs_iff.mp hRun
    exact ⟨e, path, b, hEntry, hWalk, hPrefix⟩

/-- If every run of one function is shown by another, so is every beginning. -/
theorem Observable.of_runs (hSeen : f.Observable seen) (hEntry : g.entry = f.entry)
    (hRuns : ∀ e longer, f.entry = some e → f.Runs none e longer → g.Shows none e longer) :
    g.Observable seen := by
  obtain ⟨e, he, longer, hRun, hPrefix⟩ := observable_iff.mp hSeen
  exact observable_iff.mpr ⟨e, hEntry.trans he, (hRuns e longer he hRun).mono hPrefix⟩

/-- Control can have come that way. -/
def Comes (f : Func) (came : Option BlockId) (b : BlockId) : Prop :=
  ∀ a, came = some a → b ∈ f.succs a

theorem Comes.none (f : Func) (b : BlockId) : f.Comes none b := fun _ h => by cases h

theorem Comes.edge (edge : c ∈ f.succs b) : f.Comes (some b) c := fun _ h => by cases h; exact edge

/-! ## Functions that agree where control goes -/

theorem Runs.congr {K : BlockId → Prop} (hRun : f.Runs came b seen) (hb : K b)
    (hCode : ∀ x, K x → g.code x = f.code x)
    (hSuccs : ∀ x c, K x → c ∈ f.succs x → c ∈ g.succs x ∧ K c) : g.Runs came b seen := by
  induction hRun with
  | stop came b =>
    rw [observedAt_eq, ← hCode b hb, ← observedAt_eq]
    exact .stop came b
  | @step came b next seen edge rest ih =>
    obtain ⟨edge', hNext⟩ := hSuccs b next hb edge
    rw [observedAt_eq, ← hCode b hb, ← observedAt_eq]
    exact .step edge' (ih hNext)

/-- Two functions cannot be told apart if they have the same code and the same edges wherever
control can go from the entry. -/
theorem observable_congr {K : BlockId → Prop} (hEntry : g.entry = f.entry)
    (hStart : ∀ e, f.entry = some e → K e) (hCode : ∀ x, K x → g.code x = f.code x)
    (hSuccs : ∀ x c, K x → (c ∈ g.succs x ↔ c ∈ f.succs x))
    (hStays : ∀ x c, K x → c ∈ f.succs x → K c) : g.Observable seen ↔ f.Observable seen := by
  constructor
  · intro hSeen
    refine hSeen.of_runs hEntry.symm fun e longer he hRun => ⟨longer, ?_, List.prefix_rfl⟩
    refine hRun.congr (hStart e (hEntry ▸ he)) (fun x hx => (hCode x hx).symm) fun x c hx edge => ?_
    have edge' := (hSuccs x c hx).mp edge
    exact ⟨edge', hStays x c hx edge'⟩
  · intro hSeen
    refine hSeen.of_runs hEntry fun e longer he hRun => ⟨longer, ?_, List.prefix_rfl⟩
    exact hRun.congr (hStart e he) hCode fun x c hx edge =>
      ⟨(hSuccs x c hx).mpr edge, hStays x c hx edge⟩

/-! ## What a pass keeps -/

/-- The second function is as orderly as a pass needs, and shows what the first one shows. -/
structure Retraces (f g : Func) : Prop where
  consistent : g.Consistent
  wired : g.Wired
  observable_iff : ∀ seen, g.Observable seen ↔ f.Observable seen

theorem Retraces.of_isValid (hc : f.Consistent) (hValid : f.isValid = true) : Retraces f f :=
  ⟨hc, ((isValid_iff_wellFormed hc.mem_layout hc.id_eq).mp hValid).wired hc, fun _ => Iff.rfl⟩

theorem Retraces.refl_right (hf : Retraces f g) : Retraces g g :=
  ⟨hf.consistent, hf.wired, fun _ => Iff.rfl⟩

theorem Retraces.trans (hfg : Retraces f g) (hgh : Retraces g h) : Retraces f h :=
  ⟨hgh.consistent, hgh.wired, fun seen =>
    (hgh.observable_iff seen).trans (hfg.observable_iff seen)⟩

/-- A function with the code, the edges and the entry of another. -/
theorem Retraces.of_same (hc : g.Consistent) (hf : f.Wired) (hEntry : g.entry = f.entry)
    (hCode : ∀ x, g.code x = f.code x) (hSuccs : ∀ x c, c ∈ g.succs x ↔ c ∈ f.succs x) :
    Retraces f g :=
  ⟨hc, hf.of_same hCode hSuccs, fun _ => observable_congr (K := fun _ => True) hEntry
    (fun _ _ => trivial) (fun x _ => hCode x) (fun x c _ => hSuccs x c) fun _ _ _ _ => trivial⟩

/-- Blocks that control does not get to can go, if no phi has a pair for one of them. -/
theorem Shrunk.retraces {keep : BlockId → Bool} (hg : Shrunk f keep g) (hc : g.Consistent)
    (hf : f.Wired) (hEntry : ∀ e, f.entry = some e → keep e = true)
    (hStays : ∀ x c, keep x = true → c ∈ f.succs x → keep c = true)
    (hPairs : ∀ x, ∀ i ∈ f.code x, i.isPhi = true → ∀ a, x ∈ f.succs a → keep a = true) :
    Retraces f g := by
  have hCode : ∀ x, g.code x = if keep x then f.code x else [] := by
    intro x
    split
    · rename_i hx
      exact hg.code_eq x hx
    · rename_i hx
      refine code_of_not_hasBlock (Bool.eq_false_iff.mpr fun hHas => ?_)
      exact hx ((hg.hasBlock_iff x).mp hHas).1
  have hSuccs : ∀ x c, keep x = true → (c ∈ g.succs x ↔ c ∈ f.succs x) := by
    intro x c hx
    rw [hg.mem_succs]
    exact ⟨fun edge => edge.1, fun edge => ⟨edge, hx, hStays x c hx edge⟩⟩
  refine ⟨hc, ⟨⟨fun x => ?_, fun x c => ?_⟩, fun x i hi => ?_⟩, fun seen => ?_⟩
  · rw [hCode]
    split
    · exact hf.ordered x
    · exact List.Pairwise.nil
  · by_cases hx : keep x = true
    · rw [hSuccs x c hx, hCode, if_pos hx, hf.mem_succs]
    · rw [hg.mem_succs, hCode, if_neg hx]
      simp [hx]
  · rw [hCode] at hi
    split at hi
    · rename_i hx
      intro hPhi
      refine (hf.pairs x i hi).congr (fun a => ?_) hPhi
      rw [hg.mem_succs]
      exact ⟨fun edge => ⟨edge, hPairs x i hi hPhi a edge, hx⟩, fun edge => edge.1⟩
    · exact absurd hi List.not_mem_nil
  · exact observable_congr (K := (keep · = true)) hg.entry_eq hEntry hg.code_eq hSuccs hStays

end Func

end Midend
