import Defing.State.Course
import Defing.State.Isolation
import Defing.State.Readable

/-!
# What holds of every branch in every run

A property that an empty branch has and every move keeps is a property of
every branch of every reachable store, deletions included: they leave a branch
as it is, or nothing of it.
-/

namespace Defing

open KV (Prog Plain segments)

variable [SerdeJson]
variable {id id' : ProjectId} {b b' : BranchName} {t : Store} {s s' : State} {cmd : Command} {now : Int}
  {events : List PublishEvent}

/-! ## Commands that go through, and those that do not -/

/-- The events of a command; one that fails has none. -/
def Outcome.emitted (o : Outcome) : List PublishEvent :=
  match o.result with
  | .ok events => events
  | .error _ => []

omit [SerdeJson] in
theorem not_direct_of_under {k : String} (hk : UnderBranch id b k) (cmd : Command) : ¬ touchesDirectly cmd k := by
  intro h
  cases cmd <;> try exact h.elim
  obtain ⟨key, rfl⟩ := h
  exact not_under_of_outside (outside_sharedDraftKey key) hk

theorem branchAt_of_error (ht : WellPlaced t) {e : Error} (h : (apply cmd now t).result = .error e)
    (hn : Named id b) : branchAt (apply cmd now t).store id b = branchAt t id b := by
  rcases apply_cases ht cmd now with ⟨events, s, -, he⟩ | ⟨-, -, -, -, hk⟩
  · rw [he] at h; cases h
  · exact branchAt_congr (fun k hk' => (hk k).resolve_right fun h => not_direct_of_under hk' cmd h.1) hn

theorem apply_course (ht : WellPlaced t) (hr : Rooted t) (hc : ¬ removesBranches cmd) (now : Int) :
    Course t cmd ⟨t, []⟩ (apply cmd now t).emitted ⟨(apply cmd now t).store, (apply cmd now t).writes⟩ := by
  rcases apply_cases ht cmd now with ⟨events, s, hs, he⟩ | ⟨e, -, he, hw, -⟩
  · rw [he]
    exact execute_course ht hr hc hs
  · rw [Outcome.emitted, he]
    exact .quiet (fun id b hn => branchAt_of_error ht he hn) hw (.refl _)

omit [SerdeJson] in
theorem Slot.keyOfProject (x : Slot) (id : ProjectId) (b : BranchName) : KeyOfProject id (x.key id b) := by
  refine .inr (startsWith_iff.mpr ?_)
  cases x <;> simp [Slot.key, branchStateKey, versionKey, snapshotKey, diffKey, graySnapKey, projectKey, kBranch]

omit [SerdeJson] in
theorem Slot.keyOfBranch (x : Slot) (id : ProjectId) (b : BranchName) : KeyOfBranch id b (x.key id b) := by
  refine startsWith_iff.mpr ?_
  cases x <;> simp [Slot.key, branchStateKey, versionKey, snapshotKey, diffKey, graySnapKey, branchPrefix, kState,
    kVersion, kGraySnap]

omit [SerdeJson] in
theorem under_of_branchPrefix {p : ProjectId} (hp : Plain p) {k : String} (h : startsWith (branchPrefix p b) k) :
    ∃ tail, segments k = "p" :: p :: "b" :: tail := by
  obtain ⟨c, hc⟩ := startsWith_iff.mp h
  exact ⟨_, KV.segments_of ["p", p, "b"] (String.ofList (b.toList ++ c))
    (by rw [← hc]; simp [KV.under, branchPrefix, kProject, kBranch]) (by simpa [Plain] using hp)⟩

omit [SerdeJson] in
theorem KeyOfProject.segments (hi : Plain id) {k : String} (h : KeyOfProject id k) :
    ∃ tail, segments k = "p" :: id :: tail := by
  rcases h with rfl | h
  · exact ⟨[], segments_projectKey hi⟩
  · obtain ⟨c, hc⟩ := startsWith_iff.mp h
    exact ⟨_, KV.segments_of ["p", id] (String.ofList c)
      (by rw [← hc]; simp [KV.under, projectKey, kProject]) (by simpa [Plain] using hi)⟩

def SameProject (t t' : Store) (id : ProjectId) : Prop :=
  ∀ k, KeyOfProject id k → (∀ tail, segments k ≠ "p" :: id :: "b" :: tail) → t'[k]? = t[k]?

theorem plain_of_projectDelete (ht : WellPlaced t) {p : ProjectId} {o : String}
    (h : execute (.projectDelete p o) now t = (.ok events, s)) : Plain p := by
  obtain ⟨_, hp, h⟩ := loadMerged_bind.mp h
  obtain ⟨proj, rfl, -⟩ := okOr_bind.mp h
  exact plain_of_validName (validName_of_project proj (ht _ _ (decodes_exact.mp hp))).1

/-- A deletion leaves a branch and its project as they are, or nothing of the branch. -/
theorem apply_removes (ht : WellPlaced t) (hc : removesBranches cmd) (now : Int) (hn : Named id b) :
    branchAt (apply cmd now t).store id b = branchAt t id b ∧ SameProject t (apply cmd now t).store id ∨
      branchAt (apply cmd now t).store id b = Branch.empty := by
  rcases apply_cases ht cmd now with ⟨events, s, hs, he⟩ | ⟨e, -, he, -, hk⟩
  · rw [he]
    cases cmd <;> try exact hc.elim
    case projectDelete p o =>
      have hp := plain_of_projectDelete ht hs
      have hrow : ∀ k, KeyOfProject id k → s.kv[k]? = if p.toList <+: id.toList then none else t[k]? := by
        intro k hk
        rw [projectDelete_keys ht hs fun h => hk.not_outside hn.plain.1 h.outside]
        simp only [startsWith_projectKey hp hk]
      by_cases hpre : p.toList <+: id.toList
      · refine .inr (funext fun x => ?_)
        rw [branchAt, hrow _ (x.keyOfProject id b), if_pos hpre]
        rfl
      · refine .inl ⟨funext fun x => ?_, fun k hk _ => ?_⟩
        · rw [branchAt, hrow _ (x.keyOfProject id b), if_neg hpre]
          rfl
        · rw [hrow _ hk, if_neg hpre]
    case branchDelete p b₀ o =>
      have hb₀ : Named p b₀ := by
        have h := hs
        obtain ⟨st, hst, -⟩ := getBranchState_bind h
        exact named_of_stateOf ht hst
      have hrest : SameProject t s.kv id := by
        intro k hk hseg
        rw [branchDelete_keys hs, if_neg]
        intro h
        obtain ⟨tail, htail⟩ := under_of_branchPrefix hb₀.plain.1 h
        obtain ⟨tail', htail'⟩ := hk.segments hn.plain.1
        rw [htail'] at htail
        simp only [List.cons.injEq, true_and] at htail
        obtain ⟨rfl, rfl⟩ := htail
        exact hseg _ htail'
      by_cases hpre : p = id ∧ b₀.toList <+: b.toList
      · refine .inr (funext fun x => ?_)
        obtain ⟨rfl, hpre⟩ := hpre
        rw [branchAt, branchDelete_keys hs, if_pos ((startsWith_branchPrefix hb₀.plain.2 (x.keyOfBranch p b)).mpr hpre)]
        rfl
      · refine .inl ⟨funext fun x => ?_, hrest⟩
        rw [branchAt, branchDelete_keys hs, if_neg]
        · rfl
        · intro h
          obtain ⟨tail, htail⟩ := under_of_branchPrefix hb₀.plain.1 h
          obtain ⟨tail', htail'⟩ := x.under hn
          rw [htail'] at htail
          simp only [List.cons.injEq, true_and] at htail
          obtain rfl := htail.1
          exact hpre ⟨rfl, (startsWith_branchPrefix hb₀.plain.2 (x.keyOfBranch id b)).mp h⟩
  · refine .inl ⟨branchAt_of_error ht he hn, fun k hk' _ => (hk k).resolve_right fun h => ?_⟩
    cases cmd <;> first | exact hc.elim | exact h.1.elim

/-- Branches belong to projects, in every reachable store. -/
theorem rooted_apply (ht : WellPlaced t) (hr : Rooted t) (cmd : Command) (now : Int) :
    Rooted (apply cmd now t).store := by
  by_cases hc : removesBranches cmd
  · intro id b hn hst
    rcases apply_removes ht hc now hn with ⟨hb, hp⟩ | hb
    · rw [← state_branchAt, hb, state_branchAt] at hst
      rw [entity_congr (hp _ (.inl rfl) fun tail h => ?_)]
      · exact hr id b hn hst
      · rw [segments_projectKey hn.plain.1] at h
        cases h
    · rw [← state_branchAt, hb] at hst
      cases hst
  · exact (apply_evolves ht hr hc now).rooted hr

theorem rooted_reach {allowed : Store → Command → Int → Prop} (h : Reach allowed t) : Rooted t := by
  induction h with
  | empty => exact rooted_empty
  | step cmd now hreach _ ih => exact rooted_apply (wellPlaced_of_reach hreach) ih cmd now

/-! ## Invariants -/

/-- What moves keep, courses keep; and what holds of the events of moves holds of those of courses. -/
theorem Course.invariant_events {I : ProjectId → BranchName → Branch → Prop} {Q : PublishEvent → Prop}
    (hmove : ∀ {id b br events ws br'}, Named id b → I id b br → Move t id b cmd br events ws br' →
      I id b br' ∧ ∀ e ∈ events, Q e)
    (h : Course t cmd s events s') (hs : ∀ id b, Named id b → I id b (branchAt s.kv id b)) :
    (∀ id b, Named id b → I id b (branchAt s'.kv id b)) ∧ ∀ e ∈ events, Q e := by
  induction h with
  | refl => exact ⟨hs, fun _ h => absurd h List.not_mem_nil⟩
  | quiet hb _ _ ih => exact ih fun id b hn => hb id b hn ▸ hs id b hn
  | @move s s₁ s₂ _ _ _ id₀ b₀ hn hm he _ _ ih =>
    have hkept : ∀ id b, Named id b → I id b (branchAt s₁.kv id b) := by
      intro id b hn'
      by_cases e : id = id₀ ∧ b = b₀
      · obtain ⟨rfl, rfl⟩ := e
        exact (hmove hn (hs _ _ hn) hm).1
      · rw [branchAt_elsewhere he hn' e]
        exact hs id b hn'
    obtain ⟨hI, hQ⟩ := ih hkept
    refine ⟨hI, fun e he => ?_⟩
    rcases List.mem_append.mp he with he | he
    · exact (hmove hn (hs _ _ hn) hm).2 e he
    · exact hQ e he

theorem Course.invariant {I : ProjectId → BranchName → Branch → Prop}
    (hmove : ∀ {id b br events ws br'}, Named id b → I id b br → Move t id b cmd br events ws br' → I id b br')
    (h : Course t cmd s events s') (hs : ∀ id b, Named id b → I id b (branchAt s.kv id b)) :
    ∀ id b, Named id b → I id b (branchAt s'.kv id b) :=
  (h.invariant_events (Q := fun _ => True) (fun hn hi hm => ⟨hmove hn hi hm, fun _ _ => trivial⟩) hs).1

section
variable {I : ProjectId → BranchName → Branch → Prop} (hempty : ∀ id b, I id b Branch.empty)
include hempty

/-- What an empty branch has and moves keep, commands keep. -/
theorem apply_invariant (ht : WellPlaced t) (hr : Rooted t)
    (hmove : ∀ {id b br events ws br'}, Named id b → I id b br → Move t id b cmd br events ws br' → I id b br')
    (hI : ∀ id b, Named id b → I id b (branchAt t id b)) (now : Int) :
    ∀ id b, Named id b → I id b (branchAt (apply cmd now t).store id b) := by
  intro id b hn
  by_cases hc : removesBranches cmd
  · rcases apply_removes ht hc now hn with ⟨hb, -⟩ | hb
    · rw [hb]
      exact hI id b hn
    · rw [hb]
      exact hempty id b
  · exact (apply_course ht hr hc now).invariant hmove hI id b hn

theorem reach_invariant {allowed : Store → Command → Int → Prop}
    (hmove : ∀ {t cmd now id b br events ws br'}, Reach allowed t → allowed t cmd now →
      (∀ id b, Named id b → I id b (branchAt t id b)) → Named id b → I id b br → Move t id b cmd br events ws br' →
        I id b br') (h : Reach allowed t) : ∀ id b, Named id b → I id b (branchAt t id b) := by
  induction h with
  | empty =>
    intro id b hn
    have he : branchAt ∅ id b = Branch.empty := funext fun x => Std.ExtTreeMap.getElem?_empty
    rw [he]
    exact hempty id b
  | step cmd now hreach ha ih =>
    exact apply_invariant hempty (wellPlaced_of_reach hreach) (rooted_reach hreach)
      (fun hn hi hm => hmove hreach ha ih hn hi hm) ih now

end

/-! ## Runs with their past -/

abbrev Entry := Store × Command × Int

/-- A run with all it went through: each step may depend on what came before it. -/
inductive Trace (allowed : List Entry → Store → Command → Int → Prop) : List Entry → Store → Prop
  | start : Trace allowed [] ∅
  | step {past : List Entry} {t : Store} (cmd : Command) (now : Int) :
      Trace allowed past t → allowed past t cmd now → Trace allowed (past ++ [(t, cmd, now)]) (apply cmd now t).store

theorem Trace.reach {allowed : List Entry → Store → Command → Int → Prop} {past : List Entry}
    (h : Trace allowed past t) : Reachable t := by
  induction h with
  | start => exact .empty
  | step cmd now _ _ ih => exact .step cmd now ih trivial

theorem Trace.split {allowed : List Entry → Store → Command → Int → Prop} {past l r : List Entry} {e : Entry}
    (h : Trace allowed past t) (hp : past = l ++ e :: r) :
    Trace allowed l e.1 ∧ Trace allowed (l ++ [e]) (apply e.2.1 e.2.2 e.1).store := by
  induction h generalizing r with
  | start => exact absurd hp (by simp)
  | @step past t cmd now htrace ha ih =>
    rcases List.eq_nil_or_concat r with rfl | ⟨r, x, rfl⟩
    · obtain ⟨rfl, he⟩ := List.append_inj' hp rfl
      obtain rfl := List.singleton_inj.mp he
      exact ⟨htrace, htrace.step cmd now ha⟩
    · rw [List.concat_eq_append, ← List.cons_append, ← List.append_assoc] at hp
      exact ih (List.append_inj_left' hp rfl)

def pastOf (log : List (Command × Int)) : List Entry :=
  (log.foldl (fun acc e => (acc.1 ++ [(acc.2, e)], (apply e.1 e.2 acc.2).store)) (([], ∅) : List Entry × Store)).1

theorem pastOf_append (log : List (Command × Int)) (e : Command × Int) :
    pastOf (log ++ [e]) = pastOf log ++ [(runLog log, e)] := by
  have hstore : ∀ (log : List (Command × Int)) (past : List Entry) (t : Store),
      (log.foldl (fun acc e => (acc.1 ++ [(acc.2, e)], (apply e.1 e.2 acc.2).store)) (past, t)).2 =
        log.foldl (fun t e => (apply e.1 e.2 t).store) t := by
    intro log
    induction log with
    | nil => exact fun _ _ => rfl
    | cons e log ih => exact fun past t => ih _ _
  rw [pastOf, List.foldl_append, List.foldl_cons, List.foldl_nil, hstore]
  rfl

theorem Trace.append {allowed : List Entry → Store → Command → Int → Prop} {log log' : List (Command × Int)}
    (h : Trace allowed (pastOf log) (runLog log)) (cmd : Command) (now : Int)
    (ha : allowed (pastOf log) (runLog log) cmd now) (hlog : log' = log ++ [(cmd, now)]) :
    Trace allowed (pastOf log') (runLog log') := by
  have hrun : runLog (log ++ [(cmd, now)]) = (apply cmd now (runLog log)).store := List.foldl_append
  rw [hlog, pastOf_append, hrun]
  exact .step cmd now h ha

theorem trace_runLog {allowed : List Entry → Store → Command → Int → Prop} (log : List (Command × Int))
    (ha : ∀ past t, ∀ e ∈ log, allowed past t e.1 e.2) : Trace allowed (pastOf log) (runLog log) := by
  induction log using List.reverseRecOn with
  | nil => exact .start
  | append_singleton log e ih =>
    have h := ih fun past t e he => ha past t e (List.mem_append_left _ he)
    exact h.append e.1 e.2 (ha _ _ e (List.mem_append_right _ List.mem_cons_self)) rfl

theorem length_pastOf (log : List (Command × Int)) : (pastOf log).length = log.length := by
  induction log using List.reverseRecOn with
  | nil => rfl
  | append_singleton log a ih => rw [pastOf_append, List.length_append, List.length_append, ih]; rfl

/-- Each entry of the past is a command of the log, taken in the store of those before it. -/
theorem getElem?_pastOf (log : List (Command × Int)) (i : Nat) :
    (pastOf log)[i]? = (log[i]?).map fun e => (runLog (log.take i), e) := by
  induction log using List.reverseRecOn with
  | nil => rfl
  | append_singleton log a ih =>
    rw [pastOf_append]
    rcases Nat.lt_trichotomy i log.length with h | rfl | h
    · rw [List.getElem?_append_left (by rwa [length_pastOf]), List.getElem?_append_left h,
        List.take_append_of_le_length h.le, ih]
    · rw [List.getElem?_append_right (length_pastOf log).le, length_pastOf]
      simp
    · rw [List.getElem?_eq_none (by rw [List.length_append, length_pastOf]; exact h),
        List.getElem?_eq_none (by rw [List.length_append]; exact h)]
      rfl

theorem pastOf_take (log : List (Command × Int)) (k : Nat) : pastOf (log.take k) = (pastOf log).take k := by
  refine List.ext_getElem? fun i => ?_
  rw [getElem?_pastOf, List.getElem?_take, List.getElem?_take, getElem?_pastOf]
  split
  · rename_i h
    rw [List.take_take, min_eq_left h.le]
  · rfl

/-- Each command of a log was taken in the store of those before it. -/
theorem mem_pastOf {log l : List (Command × Int)} {e : Command × Int} (h : l ++ [e] <+: log) :
    (runLog l, e) ∈ pastOf log := by
  obtain ⟨rest, rfl⟩ := h
  refine List.mem_of_getElem? (i := l.length) ?_
  rw [getElem?_pastOf]
  simp

/-! ## Branches without a state -/

theorem empty_of_reach {allowed : Store → Command → Int → Prop} (h : Reach allowed t) (hn : Named id b)
    (hs : stateOf t id b = none) : branchAt t id b = Branch.empty := by
  have hI := reach_invariant (I := fun _ _ br => br.state = none → br = Branch.empty) (fun _ _ _ => rfl) ?_ h id b hn
  · exact hI hs
  · rintro t cmd now id b br events ws br' - - - - - hm hnone
    cases hm <;> cases hnone

end Defing
