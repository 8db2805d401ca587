import Defing.State.Always

/-!
# Numbers of versions and of gray releases

The number of a version made by a promotion or by the publication of a
structure is beyond all numbers that clients of the branch have seen, unless a
gray release was aborted whose number the branch has not caught up with. The
numbers of gray releases start over with each of them.
-/

namespace Defing

open KV (Prog Plain)

section
variable [SerdeJson]
variable {id : ProjectId} {b : BranchName} {t : Store} {s : State} {br br' : Branch} {cmd : Command} {now : Int}
  {past : List Entry}

/-! ## What numbers depend on -/

def Aborted (past : List Entry) (id : ProjectId) (b : BranchName) (n : Nat) : Prop :=
  ∃ e ∈ past, ∃ c r o ts st, e.2.1 = .grayAbort id b c r o ts ∧ stateOf e.1 id b = some st ∧
    st.lastRequestId ≠ some r ∧ st.graySeq = n

/-- The numbers at which gray releases of a branch were aborted are not beyond those it has. -/
def CaughtUp (past : List Entry) (id : ProjectId) (b : BranchName) (st : BranchState) : Prop :=
  ∀ n, Aborted past id b n → n ≤ max st.activeVersion st.graySeq

def AcceptsGray (t : Store) (id : ProjectId) (b : BranchName) (st : BranchState) (rule : GrayRule) (r : String)
    (policy : PublishPolicy) : Prop :=
  st.lastRequestId ≠ some r ∧ ¬ (st.valueDraft = ∅ ∧ st.bindingsDirty = false) ∧
    (validateGrayRule rule).eval t = .ok () ∧ ∃ struct old res, structOf t id = some struct ∧
      activeContents t id b st = some old ∧ (materializeResolved st struct old policy).eval t = .ok res

/-- Nothing is deleted, promotions and structures are published on branches that have caught up with
their aborted releases, and no branch starts a gray release after another one. -/
def Orderly (past : List Entry) (t : Store) (cmd : Command) (_now : Int) : Prop :=
  ¬ removesBranches cmd ∧
  match cmd with
  | .grayPromote id b _ r .. => ∀ st, stateOf t id b = some st → st.lastRequestId ≠ some r → st.graySeq ≠ 0 →
      (activeContents t id b st).isSome → CaughtUp past id b st
  | .publishStructure id _ _ _ _ policy => Publishable t id policy →
      ∀ b st, stateOf t id b = some st → (activeContents t id b st).isSome → CaughtUp past id b st
  | .grayPublish id b rule _ r _ _ policy => ∀ st, stateOf t id b = some st → AcceptsGray t id b st rule r policy →
      st.graySeq = 0 → ∀ e ∈ past, ∀ st', stateOf e.1 id b = some st' → st'.graySeq = 0
  | _ => True

/-! ## The numbers seen -/

structure Seen (past : List Entry) (id : ProjectId) (b : BranchName) (br : Branch) : Prop where
  /-- Before a branch is made it has no numbers. -/
  fresh : br.state = none → ∀ e ∈ past, stateOf e.1 id b = none
  active : ∀ st, br.state = some st → ∀ e ∈ past, ∀ st', stateOf e.1 id b = some st' →
    st'.activeVersion ≤ st.activeVersion
  gray : ∀ st, br.state = some st → ∀ e ∈ past, ∀ st', stateOf e.1 id b = some st' →
    st'.graySeq ≤ max st.activeVersion st.graySeq ∨ ∃ n, Aborted past id b n ∧ st'.graySeq ≤ n
  /-- The numbers of the gray release under way are those of one release. -/
  release : ∀ st, br.state = some st → st.graySeq > 0 → ∀ e ∈ past, ∀ st', stateOf e.1 id b = some st' →
    st'.graySeq ≤ st.graySeq ∧ (st'.graySeq = st.graySeq → (branchAt e.1 id b).gray st'.graySeq = br.gray st.graySeq)

/-- Another state of a branch: its version is no smaller, its gray number is the one it had, none, or a new
one; and if it is less than before it was aborted. -/
theorem Seen.step (hs : Seen past id b br) {st st' : BranchState} (hst : br.state = some st)
    (hst' : br'.state = some st') (ha : st.activeVersion ≤ st'.activeVersion)
    (hg : st.graySeq ≤ max st'.activeVersion st'.graySeq ∨ Aborted past id b st.graySeq)
    (hr : st'.graySeq > 0 → st'.graySeq = st.graySeq ∧ br'.gray st'.graySeq = br.gray st.graySeq ∨
      st.graySeq < st'.graySeq ∧ (st.graySeq = 0 → ∀ e ∈ past, ∀ u, stateOf e.1 id b = some u → u.graySeq = 0)) :
    Seen past id b br' where
  fresh h := by rw [hst'] at h; cases h
  active := by
    intro st₁ h e he u hu
    obtain rfl := Option.some.inj (hst'.symm.trans h)
    exact (hs.active st hst e he u hu).trans ha
  gray := by
    intro st₁ h e he u hu
    obtain rfl := Option.some.inj (hst'.symm.trans h)
    rcases hs.gray st hst e he u hu with hle | haborted
    · rcases hg with hg | hg
      · left
        omega
      · rcases Nat.lt_or_ge st.graySeq u.graySeq with h | h
        · left
          omega
        · exact .inr ⟨_, hg, h⟩
    · exact .inr haborted
  release := by
    intro st₁ h hpos e he u hu
    obtain rfl := Option.some.inj (hst'.symm.trans h)
    rcases hr hpos with ⟨heq, hsame⟩ | ⟨hlt, hnone⟩
    · rw [hsame, heq]
      exact hs.release st hst (heq ▸ hpos) e he u hu
    · have hu' : u.graySeq < st'.graySeq := by
        rcases Nat.eq_zero_or_pos st.graySeq with h0 | h0
        · rw [hnone h0 e he u hu]
          exact hpos
        · exact lt_of_le_of_lt (hs.release st hst h0 e he u hu).1 hlt
      exact ⟨hu'.le, fun h => absurd h hu'.ne⟩

theorem Move.seen (ho : Orderly past t cmd now) {events : List PublishEvent} {ws : List VersionWrite}
    (h : Move t id b cmd br events ws br') (hs : Seen (past ++ [(t, cmd, now)]) id b br) :
    Seen (past ++ [(t, cmd, now)]) id b br' := by
  cases h with
  | create hnone h =>
    have hno : ∀ e ∈ past ++ [(t, cmd, now)], ∀ st', stateOf e.1 id b ≠ some st' := by
      intro e he st' hst'
      rw [hs.fresh hnone e he] at hst'
      cases hst'
    exact ⟨by rintro ⟨⟩, fun _ _ e he st' h => absurd h (hno e he st'), fun _ _ e he st' h => absurd h (hno e he st'),
      fun _ _ _ e he st' h => absurd h (hno e he st')⟩
  | @edit st st' gray _ hat hst h =>
    cases h with
    | draft => exact hs.step hst (Branch.state_become ..) le_rfl (.inl (le_max_right _ _)) fun _ => .inl ⟨rfl, rfl⟩
    | grayPublish hrule hr hp hstruct hold hm =>
      refine hs.step hst (Branch.state_become ..) le_rfl (.inl (le_max_of_le_right (Nat.le_succ _))) fun _ =>
        .inr ⟨Nat.lt_succ_self _, fun h0 e he u hu => ?_⟩
      subst hat
      rcases List.mem_append.mp he with he | he
      · exact ho.2 st hst ⟨hr, hp, hrule, _, _, _, hstruct, hold, hm⟩ h0 e he u hu
      · obtain rfl := List.mem_singleton.mp he
        obtain rfl := Option.some.inj (hst.symm.trans hu)
        exact h0
    | grayAbort hr hg hrule =>
      subst hat
      refine hs.step hst (Branch.state_become ..) le_rfl (.inr ?_) fun h => absurd h (lt_irrefl 0)
      exact ⟨_, List.mem_append_right _ List.mem_cons_self, _, _, _, _, st, rfl, hst, hr, rfl⟩
  | release record hst hold h =>
    cases h with
    | publish => exact hs.step hst (Branch.state_become ..) (Nat.le_succ _) (.inl (le_max_right _ _)) fun _ => .inl ⟨rfl, by simp⟩
    | rollback => exact hs.step hst (Branch.state_become ..) (Nat.le_succ _) (.inl (le_max_right _ _)) fun _ => .inl ⟨rfl, by simp⟩
    | cascade => exact hs.step hst (Branch.state_become ..) (Nat.le_succ _) (.inl (le_max_right _ _)) fun _ => .inl ⟨rfl, by simp⟩
    | grayPromote =>
      refine hs.step hst (Branch.state_become ..) ?_ (.inl ?_) fun h => absurd h (lt_irrefl 0)
      · dsimp only [nextMonotonic, rereadState]; omega
      · dsimp only [nextMonotonic, rereadState]; omega
    | restructure =>
      refine hs.step hst (Branch.state_become ..) ?_ (.inl ?_) fun hpos => .inr ?_
      · dsimp only [nextMonotonic, rereadState]; omega
      · dsimp only [nextMonotonic, rereadState]; omega
      · -- a gray release under way moves past the new version
        dsimp only [nextMonotonic, rereadState] at hpos ⊢
        split at hpos
        · rename_i hg
          rw [if_pos hg]
          exact ⟨by omega, fun h0 => absurd h0 hg.ne'⟩
        · rename_i hg
          exact absurd hpos hg

theorem Seen.mono {past' : List Entry} (h : Seen past id b br)
    (hnew : ∀ e ∈ past', e ∈ past ∨ branchAt e.1 id b = br) (hsub : ∀ e ∈ past, e ∈ past') : Seen past' id b br where
  fresh hnone := by
    intro e he
    rcases hnew e he with he | rfl
    · exact h.fresh hnone e he
    · exact hnone
  active := by
    intro st hst e he u hu
    rcases hnew e he with he | rfl
    · exact h.active st hst e he u hu
    · rw [Option.some.inj (hst.symm.trans hu)]
  gray := by
    intro st hst e he u hu
    rcases hnew e he with he | rfl
    · refine (h.gray st hst e he u hu).imp_right fun ⟨n, ⟨e', he', hn⟩, hle⟩ => ⟨n, ⟨e', hsub e' he', hn⟩, hle⟩
    · rw [Option.some.inj (hst.symm.trans hu)]
      exact .inl (le_max_right _ _)
  release := by
    intro st hst hpos e he u hu
    rcases hnew e he with he | rfl
    · exact h.release st hst hpos e he u hu
    · rw [Option.some.inj (hst.symm.trans hu)]
      exact ⟨le_rfl, fun _ => rfl⟩

theorem seen_of_trace (h : Trace Orderly past t) (hn : Named id b) : Seen past id b (branchAt t id b) := by
  induction h generalizing id b with
  | start => exact ⟨fun _ e he => absurd he List.not_mem_nil, fun _ _ e he => absurd he List.not_mem_nil,
      fun _ _ e he => absurd he List.not_mem_nil, fun _ _ _ e he => absurd he List.not_mem_nil⟩
  | @step past t cmd now htrace ho ih =>
    have ht := wellPlaced_of_reach htrace.reach
    refine (apply_course ht (rooted_reach htrace.reach) ho.1 now).invariant
      (I := fun id b br => Seen (past ++ [(t, cmd, now)]) id b br) (fun _ hs hm => hm.seen ho hs)
      (fun id b hn => (ih hn).mono (fun e he => ?_) fun e he => List.mem_append_left _ he) id b hn
    rcases List.mem_append.mp he with he | he
    · exact .inl he
    · exact .inr (by rw [List.mem_singleton.mp he])

/-! ## Allocation -/

def numbersPastGray : Command → Prop
  | .grayPromote .. | .publishStructure .. => True
  | _ => False

def Beyond (past : List Entry) (id : ProjectId) (b : BranchName) (n : Nat) : Prop :=
  ∀ e ∈ past, ∀ u, stateOf e.1 id b = some u → u.activeVersion < n ∧ u.graySeq < n

theorem Seen.beyond {past' : List Entry} (h : Seen past' id b br) {st : BranchState} (hst : br.state = some st)
    (hc : ∀ n, Aborted past' id b n → n ≤ max st.activeVersion st.graySeq) :
    Beyond past' id b (nextMonotonic st.activeVersion st.graySeq) := by
  intro e he u hu
  have ha := h.active st hst e he u hu
  rw [nextMonotonic]
  refine ⟨by omega, ?_⟩
  rcases h.gray st hst e he u hu with hg | ⟨n, hn, hg⟩
  · omega
  · have := hc n hn
    omega

theorem aborted_append (hc : numbersPastGray cmd) {n : Nat} (h : Aborted (past ++ [(t, cmd, now)]) id b n) :
    Aborted past id b n := by
  obtain ⟨e, he, c, r, o, ts, st, hcmd, hst⟩ := h
  rcases List.mem_append.mp he with he | he
  · exact ⟨e, he, c, r, o, ts, st, hcmd, hst⟩
  · rw [List.mem_singleton.mp he] at hcmd
    cases hcmd
    exact hc.elim

/-- A move of such a command leaves the version of a branch, or numbers it past all that it has had. -/
theorem Move.beyond (ho : Orderly past t cmd now) (hc : numbersPastGray cmd)
    (hseen : Seen (past ++ [(t, cmd, now)]) id b (branchAt t id b)) {events : List PublishEvent} {ws : List VersionWrite}
    (h : Move t id b cmd br events ws br') {st₁ : BranchState} (hst₁ : br.state = some st₁) :
    ∃ st', br'.state = some st' ∧ Beyond (past ++ [(t, cmd, now)]) id b st'.activeVersion := by
  cases h with
  | create hs => rw [hs] at hst₁; cases hst₁
  | edit hat hs h => cases h <;> exact hc.elim
  | release record hs hold h =>
    cases h with
    | publish | rollback | cascade => exact hc.elim
    | grayPromote hat hr hg hrule hnew =>
      subst hat
      refine ⟨_, rfl, hseen.beyond hs fun n hn => ?_⟩
      exact ho.2 _ hs hr hg (Option.isSome_iff_exists.mpr ⟨_, hold⟩) n (aborted_append hc hn)
    | restructure hat hpub =>
      subst hat
      refine ⟨_, rfl, hseen.beyond hs fun n hn => ?_⟩
      exact ho.2 hpub b _ hs (Option.isSome_iff_exists.mpr ⟨_, hold⟩) n (aborted_append hc hn)

/-- In a run in which promotions and structures find the branch caught up with its aborted gray releases and
no branch starts a second one, the version number that a promotion or a structure gives is greater than
every version and gray number that the branch has had; and a gray number is greater than all the branch
had before the release, or stands for the same snapshot. -/
theorem monotone_numbering (h : Trace Orderly past t) :
    (∀ cmd now, Orderly past t cmd now → numbersPastGray cmd → ∀ id b st st', stateOf t id b = some st →
      stateOf (apply cmd now t).store id b = some st' → st'.activeVersion ≠ st.activeVersion →
        Beyond (past ++ [(t, cmd, now)]) id b st'.activeVersion) ∧
    ∀ id b st, stateOf t id b = some st → st.graySeq > 0 → ∀ e ∈ past, ∀ u, stateOf e.1 id b = some u →
      u.graySeq ≤ st.graySeq ∧
        (u.graySeq = st.graySeq → (branchAt e.1 id b).gray u.graySeq = (branchAt t id b).gray st.graySeq) := by
  have ht := wellPlaced_of_reach h.reach
  constructor
  · intro cmd now ho hc id b st st' hst hst' hne
    have hn := named_of_stateOf ht hst
    have hseen : ∀ id b, Named id b → Seen (past ++ [(t, cmd, now)]) id b (branchAt t id b) := by
      intro id b hn
      refine (seen_of_trace h hn).mono (fun e he => ?_) fun e he => List.mem_append_left _ he
      exact (List.mem_append.mp he).imp_right fun he => by rw [List.mem_singleton.mp he]
    have hI := (apply_course ht (rooted_reach h.reach) ho.1 now).invariant
      (I := fun id b br => ∀ st, stateOf t id b = some st → ∃ st', br.state = some st' ∧
        (st'.activeVersion = st.activeVersion ∨ Beyond (past ++ [(t, cmd, now)]) id b st'.activeVersion)) ?_ ?_ id b hn
    · obtain ⟨st₁, hst₁, heq | hb⟩ := hI st hst
      · obtain rfl := Option.some.inj (hst'.symm.trans hst₁)
        exact absurd heq hne
      · obtain rfl := Option.some.inj (hst'.symm.trans hst₁)
        exact hb
    · intro id b br events ws br' hn hI hm st hst
      obtain ⟨st₁, hst₁, -⟩ := hI st hst
      obtain ⟨st', hst', hb⟩ := hm.beyond ho hc (hseen id b hn) hst₁
      exact ⟨st', hst', .inr hb⟩
    · exact fun id b hn st hst => ⟨st, hst, .inl rfl⟩
  · intro id b st hst hpos
    exact (seen_of_trace h (named_of_stateOf ht hst)).release st hst hpos

end

section
attribute [local instance] sampleJson

/-- A gray release of each of the first branches; the one of `prod` is aborted. -/
def releaseLog : List (Command × Int) := structureLog.take 3 ++ [
  (.draftUpdate "p" "dev" [⟨"g", "k", .string "v"⟩] [] [] "" 0 none, 4),
  (.grayPublish "p" "dev" { percentage := some 50 } "" "r1" "" 0 .block, 5),
  (.draftUpdate "p" "prod" [⟨"g", "k", .string "w"⟩] [] [] "" 0 none, 6),
  (.grayPublish "p" "prod" { percentage := some 50 } "" "r2" "" 0 .block, 7),
  (.grayAbort "p" "prod" "" "r3" "" 0, 8),
  (.structureDraftSet "p" 2 oneItem "", 9),
  (.publishStructure "p" "" "r4" "" 0 .block, 10),
  (.grayPromote "p" "dev" "" "r5" "" 0, 11)]

def numbersOf (t : Store) (b : BranchName) : Option (Nat × Nat) :=
  (stateOf t "p" b).map fun st => (st.activeVersion, st.graySeq)

def releaseNumbers : List (Option (Nat × Nat) × Option (Nat × Nat)) := [
  (none, none), (some (0, 0), some (0, 0)), (some (0, 0), some (0, 0)), (some (1, 0), some (1, 0)),
  (some (1, 0), some (1, 0)), (some (1, 1), some (1, 0)), (some (1, 1), some (1, 0)), (some (1, 1), some (1, 1)),
  (some (1, 1), some (1, 0)), (some (1, 1), some (1, 0)), (some (2, 3), some (2, 0))]

theorem numbersOf_some {t : Store} {b : BranchName} {st : BranchState} (h : stateOf t "p" b = some st) {n m : Nat}
    (hn : numbersOf t b = some (n, m)) : st.activeVersion = n ∧ st.graySeq = m := by
  rw [numbersOf, h] at hn
  exact Prod.mk.inj (Option.some.inj hn)

theorem releaseLog_numbers :
    (pastOf releaseLog).map (fun e => (numbersOf e.1 "dev", numbersOf e.1 "prod")) = releaseNumbers := by decide +kernel

theorem numbers_of_mem {k : Nat} {e : Entry} (h : e ∈ pastOf (releaseLog.take k)) :
    (numbersOf e.1 "dev", numbersOf e.1 "prod") ∈ releaseNumbers.take k := by
  rw [pastOf_take] at h
  rw [← releaseLog_numbers, ← List.map_take]
  exact List.mem_map_of_mem h

theorem numbers_at {k : Nat} {e : Command × Int} (h : releaseLog[k]? = some e) :
    some (numbersOf (runLog (releaseLog.take k)) "dev", numbersOf (runLog (releaseLog.take k)) "prod") = releaseNumbers[k]? := by
  rw [← releaseLog_numbers, List.getElem?_map, getElem?_pastOf, h]
  rfl

theorem aborted_releaseLog {k : Nat} {b : BranchName} {n : Nat} (h : Aborted (pastOf (releaseLog.take k)) "p" b n) :
    7 < k ∧ b = "prod" ∧ n = 1 := by
  obtain ⟨e, he, c, r, o, ts, st, hcmd, hst, -, rfl⟩ := h
  rw [pastOf_take] at he
  obtain ⟨i, hi⟩ := List.mem_iff_getElem?.mp he
  rw [List.getElem?_take, getElem?_pastOf] at hi
  split at hi
  · rename_i hlt
    obtain ⟨a, hget, rfl⟩ := Option.map_eq_some_iff.mp hi
    have hother : ∀ j < 11, j ≠ 7 →
        (releaseLog[j]?).all (fun e => match e.1 with | .grayAbort .. => false | _ => true) = true := by decide
    by_cases h7 : i = 7
    · subst h7
      rw [← Option.some.inj hget] at hcmd
      cases hcmd
      have hnumbers : some (_, _) = some (some (1, 1), some (1, 1)) := numbers_at (k := 7) rfl
      exact ⟨hlt, rfl, (numbersOf_some hst (Prod.mk.inj (Option.some.inj hnumbers)).2).2⟩
    · have := hother i (List.getElem?_eq_some_iff.mp hget).1 h7
      rw [hget, Option.all_some, hcmd] at this
      cases this
  · cases hi

theorem caughtUp_releaseLog {b : BranchName} {st : BranchState} (h : stateOf (runLog (releaseLog.take 9)) "p" b = some st) :
    CaughtUp (pastOf (releaseLog.take 9)) "p" b st := by
  intro n hn
  obtain ⟨-, rfl, rfl⟩ := aborted_releaseLog hn
  have hnumbers : some (_, _) = some (some (1, 1), some (1, 0)) := numbers_at (k := 9) rfl
  rw [(numbersOf_some h (Prod.mk.inj (Option.some.inj hnumbers)).2).1]
  exact le_max_left ..

theorem releaseLog_orderly : Trace Orderly (pastOf (releaseLog.take 9)) (runLog (releaseLog.take 9)) := by
  have hfirst : ∀ b st, CaughtUp (pastOf (releaseLog.take 2)) "p" b st := fun b st n hn =>
    absurd (aborted_releaseLog hn).1 (by decide)
  have hdev : ∀ e ∈ pastOf (releaseLog.take 4), ∀ st, stateOf e.1 "p" "dev" = some st → st.graySeq = 0 := by
    intro e he st hst
    have hnone : ∀ x ∈ releaseNumbers.take 4, x.1.all (·.2 = 0) := by decide
    simpa [numbersOf, hst] using hnone _ (numbers_of_mem he)
  have hprod : ∀ e ∈ pastOf (releaseLog.take 6), ∀ st, stateOf e.1 "p" "prod" = some st → st.graySeq = 0 := by
    intro e he st hst
    have hnone : ∀ x ∈ releaseNumbers.take 6, x.2.all (·.2 = 0) := by decide
    simpa [numbersOf, hst] using hnone _ (numbers_of_mem he)
  have h₀ : Trace Orderly (pastOf []) (runLog []) := .start
  have h₁ : Trace Orderly (pastOf (releaseLog.take 1)) (runLog (releaseLog.take 1)) := h₀.append _ _ ⟨id, trivial⟩ rfl
  have h₂ : Trace Orderly (pastOf (releaseLog.take 2)) (runLog (releaseLog.take 2)) := h₁.append _ _ ⟨id, trivial⟩ rfl
  have h₃ : Trace Orderly (pastOf (releaseLog.take 3)) (runLog (releaseLog.take 3)) :=
    h₂.append _ _ ⟨id, fun _ b st _ _ => hfirst b st⟩ rfl
  have h₄ : Trace Orderly (pastOf (releaseLog.take 4)) (runLog (releaseLog.take 4)) := h₃.append _ _ ⟨id, trivial⟩ rfl
  have h₅ : Trace Orderly (pastOf (releaseLog.take 5)) (runLog (releaseLog.take 5)) :=
    h₄.append _ _ ⟨id, fun _ _ _ _ => hdev⟩ rfl
  have h₆ : Trace Orderly (pastOf (releaseLog.take 6)) (runLog (releaseLog.take 6)) := h₅.append _ _ ⟨id, trivial⟩ rfl
  have h₇ : Trace Orderly (pastOf (releaseLog.take 7)) (runLog (releaseLog.take 7)) :=
    h₆.append _ _ ⟨id, fun _ _ _ _ => hprod⟩ rfl
  have h₈ : Trace Orderly (pastOf (releaseLog.take 8)) (runLog (releaseLog.take 8)) := h₇.append _ _ ⟨id, trivial⟩ rfl
  exact h₈.append _ _ ⟨id, trivial⟩ rfl

/-- The structure is published on `prod` past the number of its aborted release, and the release of `dev` is promoted. -/
theorem monotone_numbering_sample :
    Beyond (pastOf (releaseLog.take 10)) "p" "prod" 2 ∧ Beyond (pastOf releaseLog) "p" "dev" 4 := by
  have hcaught : Orderly (pastOf (releaseLog.take 9)) (runLog (releaseLog.take 9))
      (.publishStructure "p" "" "r4" "" 0 .block) 10 :=
    ⟨id, fun _ b st hst _ => caughtUp_releaseLog hst⟩
  have hpromote : Orderly (pastOf (releaseLog.take 10)) (runLog (releaseLog.take 10))
      (.grayPromote "p" "dev" "" "r5" "" 0) 11 :=
    ⟨id, fun st _ _ _ _ n hn => absurd (aborted_releaseLog hn).2.1 (by decide)⟩
  have hbefore : some (_, _) = some (some (1, 1), some (1, 0)) := numbers_at (k := 9) rfl
  have hbetween : some (_, _) = some (some (2, 3), some (2, 0)) := numbers_at (k := 10) rfl
  have hafter : numbersOf (runLog releaseLog) "dev" = some (4, 0) := by decide +kernel
  obtain ⟨-, hprod⟩ := Prod.mk.inj (Option.some.inj hbefore)
  obtain ⟨hdev, hprod'⟩ := Prod.mk.inj (Option.some.inj hbetween)
  constructor
  · obtain ⟨st, hst, h1⟩ := Option.map_eq_some_iff.mp hprod
    obtain ⟨st', hst', h2⟩ := Option.map_eq_some_iff.mp hprod'
    have := (monotone_numbering releaseLog_orderly).1 _ _ hcaught trivial "p" "prod" st st' hst hst'
      (by rw [(Prod.mk.inj h1).1, (Prod.mk.inj h2).1]; decide)
    rwa [(Prod.mk.inj h2).1] at this
  · obtain ⟨st, hst, h1⟩ := Option.map_eq_some_iff.mp hdev
    obtain ⟨st', hst', h2⟩ := Option.map_eq_some_iff.mp hafter
    have := (monotone_numbering (releaseLog_orderly.append _ _ hcaught rfl)).1 _ _ hpromote trivial "p" "dev" st st'
      hst hst' (by rw [(Prod.mk.inj h1).1, (Prod.mk.inj h2).1]; decide)
    rwa [(Prod.mk.inj h2).1] at this

def abortLog : List (Command × Int) := structureLog ++ [
  (.draftUpdate "p" "x" [⟨"g", "k", .string "v"⟩] [] [] "" 0 none, 5),
  (.grayPublish "p" "x" { percentage := some 50 } "" "r1" "" 0 .block, 6),
  (.grayAbort "p" "x" "" "r2" "" 0, 7),
  (.structureDraftSet "p" 2 oneItem "", 8),
  (.draftUpdate "p" "x" [⟨"g", "k", .string "w"⟩] [] [] "" 0 none, 9),
  (.grayPublish "p" "x" { percentage := some 50 } "" "r3" "" 0 .block, 10)]

/-- The version of a structure published after the abort has the number the gray release had, and the next
gray release has that number again, for another snapshot. -/
theorem numbers_reused :
    (¬ ∀ past t, Trace (fun _ _ cmd _ => ¬ removesBranches cmd) past t → ∀ cmd now, ¬ removesBranches cmd →
      numbersPastGray cmd → ∀ id b st st', stateOf t id b = some st →
        stateOf (apply cmd now t).store id b = some st' → st'.activeVersion ≠ st.activeVersion →
          Beyond (past ++ [(t, cmd, now)]) id b st'.activeVersion) ∧
    ¬ ∀ past t, Trace (fun _ _ cmd _ => ¬ removesBranches cmd) past t → ∀ id b st, stateOf t id b = some st →
      st.graySeq > 0 → ∀ e ∈ past, ∀ u, stateOf e.1 id b = some u → u.graySeq = st.graySeq →
        (branchAt e.1 id b).gray u.graySeq = (branchAt t id b).gray st.graySeq := by
  have htrace : ∀ n, Trace (fun _ _ cmd _ => ¬ removesBranches cmd) (pastOf (abortLog.take n)) (runLog (abortLog.take n)) :=
    fun n => trace_runLog _ fun _ _ e he => by
      have := List.mem_of_mem_take he
      simp only [abortLog, structureLog, List.cons_append, List.nil_append, List.mem_cons, List.not_mem_nil, or_false] at this
      rcases this with rfl | rfl | rfl | rfl | rfl | rfl | rfl | rfl | rfl | rfl <;> exact id
  have hfacts : (stateOf (runLog (abortLog.take 6)) "p" "x").map (·.graySeq) = some 1 ∧
      (stateOf (runLog (abortLog.take 8)) "p" "x").map (·.activeVersion) = some 0 ∧
      (stateOf (apply (.publishStructure "p" "" "r9" "" 0 .block) 9 (runLog (abortLog.take 8))).store "p" "x").map
        (·.activeVersion) = some 1 ∧
      (stateOf (runLog (abortLog.take 10)) "p" "x").map (·.graySeq) = some 1 ∧
      (branchAt (runLog (abortLog.take 6)) "p" "x").gray 1 ≠ (branchAt (runLog (abortLog.take 10)) "p" "x").gray 1 := by
    decide +kernel
  obtain ⟨hgray, hbefore, hafter, hagain, hdiff⟩ := hfacts
  obtain ⟨u, hu, hone⟩ := Option.map_eq_some_iff.mp hgray
  have hmem : ∀ n, 7 ≤ n → (runLog (abortLog.take 6), (.grayAbort "p" "x" "" "r2" "" 0, 7)) ∈ pastOf (abortLog.take n) :=
    fun n hn => mem_pastOf (show abortLog.take 7 <+: abortLog.take n from List.take_prefix_take_left hn)
  constructor
  · intro h
    obtain ⟨st, hst, h0⟩ := Option.map_eq_some_iff.mp hbefore
    obtain ⟨st', hst', h1⟩ := Option.map_eq_some_iff.mp hafter
    have := (h _ _ (htrace 8) (.publishStructure "p" "" "r9" "" 0 .block) 9 id trivial "p" "x" st st' hst hst'
      (by rw [h0, h1]; decide) _ (List.mem_append_left _ (hmem 8 (by decide))) u hu).2
    rw [hone, h1] at this
    exact absurd this (by decide)
  · intro h
    obtain ⟨st, hst, h1⟩ := Option.map_eq_some_iff.mp hagain
    have hsame := h _ _ (htrace 10) "p" "x" st hst (by rw [h1]; decide) _ (hmem 10 (by decide)) u hu (by rw [hone, h1])
    rw [hone, h1] at hsame
    exact hdiff hsame

end

end Defing
