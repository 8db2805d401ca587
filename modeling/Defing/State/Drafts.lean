import Defing.State.Cascade
import Defing.State.References
import Defing.State.Retry

/-!
# The revision of a draft

A revision is counted by the updates of the draft only. Between two equal ones
the draft is the same unless a command changes it that does not count: one that
publishes it, prunes it, or removes the branch, or one that writes the branch
anew while a pending double is not read back as it was printed.
-/

namespace Defing

open KV (Plain segments)

section
variable [SerdeJson]

/-- The same values and bindings, whatever empty groups they stand in. -/
def SameDraft (st st' : BranchState) : Prop :=
  (∀ g k, item? st'.valueDraft g k = item? st.valueDraft g k) ∧
    ∀ g k, item? st'.sharedBindings g k = item? st.sharedBindings g k

/-- What a new structure does not keep of a branch: a value whose item is gone or shared, or a binding that does
not fit it. -/
def Prunes (t : Store) (struct : Structure) (st : BranchState) : Prop :=
  (∃ g k, item? st.valueDraft g k ≠ none ∧ (sharedIn struct g k ∨ ¬ known struct g k)) ∨
    ∃ g k rk, item? st.sharedBindings g k = some rk ∧ ¬ Fits t struct g k rk

/-- A pending value is another one when the branch has been read and written `n` times. -/
def Drifts (n : Nat) (st : BranchState) : Prop :=
  ∃ g k dv, item? st.valueDraft g k = some dv ∧ rereadDraftValue^[n] dv ≠ dv

section
variable {st st' st'' : BranchState}

omit [SerdeJson] in
theorem SameDraft.refl (st : BranchState) : SameDraft st st := ⟨fun _ _ => rfl, fun _ _ => rfl⟩

omit [SerdeJson] in
theorem SameDraft.trans (h : SameDraft st st') (h' : SameDraft st' st'') : SameDraft st st'' :=
  ⟨fun g k => (h'.1 g k).trans (h.1 g k), fun g k => (h'.2 g k).trans (h.2 g k)⟩

omit [SerdeJson] in
theorem SameDraft.symm (h : SameDraft st st') : SameDraft st' st :=
  ⟨fun g k => (h.1 g k).symm, fun g k => (h.2 g k).symm⟩

/-- A branch that is read and written has the same draft exactly if no value drifts. -/
theorem sameDraft_iff_not_drifts {n : Nat} (hv : st'.valueDraft = rereadDraft^[n] st.valueDraft)
    (hb : st'.sharedBindings = st.sharedBindings) : SameDraft st st' ↔ ¬ Drifts n st := by
  constructor
  · rintro h ⟨g, k, dv, hitem, hne⟩
    have := h.1 g k
    rw [hv, item?_rereadDraft_iterate, hitem] at this
    exact hne (Option.some.inj this)
  · refine fun h => ⟨fun g k => ?_, fun g k => by rw [hb]⟩
    rw [hv, item?_rereadDraft_iterate]
    cases hitem : item? st.valueDraft g k with
    | none => rfl
    | some dv =>
      by_contra hne
      exact h ⟨g, k, dv, hitem, fun e => hne (congrArg some e)⟩

/-- A branch under a new structure has the same draft exactly if nothing of it is pruned, and no value drifts. -/
theorem sameDraft_iff_not_prunes {t : Store} {struct : Structure}
    (hv : st'.valueDraft = rereadDraft (pruneDraft struct st.valueDraft))
    (hb : ∀ g k rk, item? st'.sharedBindings g k = some rk ↔ item? st.sharedBindings g k = some rk ∧ Fits t struct g k rk) :
    SameDraft st st' ↔ ¬ (Prunes t struct st ∨ Drifts 1 st) := by
  have hkept : ∀ {g k}, ¬ Prunes t struct st → item? (pruneDraft struct st.valueDraft) g k = item? st.valueDraft g k := by
    intro g k h
    rw [item?_pruneDraft]
    by_cases hitem : item? st.valueDraft g k = none
    · rw [hitem, ite_self, ite_self]
    · rw [if_neg fun hs => h (.inl ⟨g, k, hitem, .inl hs⟩), if_pos]
      by_contra hs
      exact h (.inl ⟨g, k, hitem, .inr hs⟩)
  constructor
  · intro h hno
    have hp : ¬ Prunes t struct st := by
      rintro (⟨g, k, hitem, hgone⟩ | ⟨g, k, rk, hbound, hfit⟩)
      · have := h.1 g k
        rw [hv, item?_rereadDraft, item?_pruneDraft] at this
        rcases hgone with hs | hs
        · rw [if_pos hs] at this
          exact hitem this.symm
        · rw [if_neg hs, ite_self] at this
          exact hitem this.symm
      · exact hfit ((hb g k rk).mp ((h.2 g k).trans hbound)).2
    obtain ⟨g, k, dv, hitem, hne⟩ := hno.resolve_left hp
    have := h.1 g k
    rw [hv, item?_rereadDraft, hkept hp, hitem] at this
    exact hne (Option.some.inj this)
  · intro h
    obtain ⟨hp, hd⟩ := not_or.mp h
    refine ⟨fun g k => ?_, fun g k => Option.ext fun rk => ?_⟩
    · rw [hv, item?_rereadDraft, hkept hp]
      cases hitem : item? st.valueDraft g k with
      | none => rfl
      | some dv =>
        by_contra hne
        exact hd ⟨g, k, dv, hitem, fun e => hne (congrArg some e)⟩
    · rw [hb]
      refine ⟨And.left, fun hbound => ⟨hbound, ?_⟩⟩
      by_contra hs
      exact hp (.inr ⟨g, k, rk, hbound, hs⟩)

end

section
variable {t t' : Store} {id : ProjectId} {b : BranchName} {st st' : BranchState} {cmd : Command} {now : Int}
  {s s' : State} {events : List PublishEvent}

/-- The commands that change the draft of a branch, or take it away, and do not count in its revision. -/
inductive Overlooked (t : Store) (id : ProjectId) (b : BranchName) (st : BranchState) : Command → Int → Prop
  | publish {c r o : String} {ts now : Int} {policy : PublishPolicy}
      (hok : ∃ events, (apply (.publish id b c r o ts policy) now t).result = .ok events)
      (hr : st.lastRequestId ≠ some r) (hitem : HasItem st.valueDraft) : Overlooked t id b st (.publish id b c r o ts policy) now
  | grayPublish {rule : GrayRule} {c r o : String} {ts now : Int} {policy : PublishPolicy}
      (hok : ∃ events, (apply (.grayPublish id b rule c r o ts policy) now t).result = .ok events)
      (hr : st.lastRequestId ≠ some r) (hitem : HasItem st.valueDraft) :
      Overlooked t id b st (.grayPublish id b rule c r o ts policy) now
  | publishStructure {c r o : String} {ts now : Int} {policy : PublishPolicy} {struct : Structure} {draft : StructureDraft}
      (hok : ∃ events, (apply (.publishStructure id c r o ts policy) now t).result = .ok events)
      (hstruct : structOf t id = some struct) (hdraft : entity StructureDraft t (structDraftKey id) = some draft)
      (hprunes : Prunes t { version := struct.version + 1, groups := draft.groups } st ∨ Drifts 1 st) :
      Overlooked t id b st (.publishStructure id c r o ts policy) now
  | rewritten {cmd : Command} {r : String} {now : Int} (hreq : branchRequest cmd = some (id, b, r))
      (hok : ∃ events, (apply cmd now t).result = .ok events) (hr : st.lastRequestId ≠ some r) (hdrift : Drifts 1 st) :
      Overlooked t id b st cmd now
  | sharedPublish {c r o : String} {ts now : Int} {mode : SharedCascadeMode} {policy : PublishPolicy}
      (hok : ∃ events, (apply (.sharedPublish c r o ts mode policy) now t).result = .ok events)
      (hdrift : Drifts (cascades mode (draftsOf t) st.sharedBindings) st) :
      Overlooked t id b st (.sharedPublish c r o ts mode policy) now
  | branchDelete {b' : BranchName} {o : String} {now : Int}
      (hok : ∃ events, (apply (.branchDelete id b' o) now t).result = .ok events) (hpre : b'.toList <+: b.toList) :
      Overlooked t id b st (.branchDelete id b' o) now
  | projectDelete {q : ProjectId} {o : String} {now : Int}
      (hok : ∃ events, (apply (.projectDelete q o) now t).result = .ok events) (hpre : q.toList <+: id.toList) :
      Overlooked t id b st (.projectDelete q o) now

/-- The next state of a branch: the same revision and draft, or the next revision. -/
def Counted (st st' : BranchState) : Prop :=
  st'.draftRev = st.draftRev ∧ SameDraft st st' ∨ st'.draftRev = st.draftRev + 1

omit [SerdeJson] in
theorem not_hasItem_iff {m : ValueDraft} : ¬ HasItem m ↔ ∀ g k, item? m g k = none := by
  simp [HasItem]

omit [SerdeJson] in
theorem sameDraft_cleared (hempty : ¬ HasItem st.valueDraft) (hv : st'.valueDraft = ∅)
    (hb : st'.sharedBindings = st.sharedBindings) : SameDraft st st' := by
  refine ⟨fun g k => ?_, fun g k => by rw [hb]⟩
  rw [hv, item?_empty, not_hasItem_iff.mp hempty]

/-- What a move makes of the state of the branch, if it is not one of a cascade. -/
theorem Move.counted {events : List PublishEvent} {ws : List VersionWrite} {br br' : Branch} {st₁ : BranchState}
    (hok : ∃ events, (apply cmd now t).result = .ok events) (hst : stateOf t id b = some st)
    (hno : ¬ Overlooked t id b st cmd now) (hc : ∀ c r o ts mode policy, cmd ≠ .sharedPublish c r o ts mode policy)
    (h : Move t id b cmd br events ws br') (hbr : br.state = some st₁) : ∃ st', br'.state = some st' ∧ Counted st st' := by
  have hat : br = branchAt t id b → st₁ = st := by
    rintro rfl
    exact Option.some.inj (hbr.symm.trans hst)
  have hsame : ∀ {r st'}, branchRequest cmd = some (id, b, r) → st.lastRequestId ≠ some r →
      st'.valueDraft = rereadDraft st.valueDraft → st'.sharedBindings = st.sharedBindings → SameDraft st st' :=
    fun hreq hr hv hb => (sameDraft_iff_not_drifts (n := 1) hv hb).mpr fun hd => hno (.rewritten hreq hok hr hd)
  cases h with
  | create hs =>
    rw [hbr] at hs
    cases hs
  | edit hb hs h =>
    obtain rfl := hat hb
    obtain rfl := Option.some.inj (hs.symm.trans hbr)
    refine ⟨_, Branch.state_become .., ?_⟩
    cases h with
    | draft => exact .inr rfl
    | grayPublish hrule hr hp =>
      exact .inl ⟨rfl, sameDraft_cleared (fun hi => hno (.grayPublish hok hr hi)) rereadDraft_empty rfl⟩
    | grayAbort hr => exact .inl ⟨rfl, hsame rfl hr rfl rfl⟩
  | release record hs ho h =>
    obtain rfl := Option.some.inj (hs.symm.trans hbr)
    refine ⟨_, Branch.state_become .., ?_⟩
    cases h with
    | publish hb hr hp =>
      obtain rfl := hat hb
      exact .inl ⟨rfl, sameDraft_cleared (fun hi => hno (.publish hok hr hi)) rereadDraft_empty rfl⟩
    | rollback hb hr =>
      obtain rfl := hat hb
      exact .inl ⟨rfl, hsame rfl hr rfl rfl⟩
    | grayPromote hb hr =>
      obtain rfl := hat hb
      exact .inl ⟨rfl, hsame rfl hr rfl rfl⟩
    | restructure hb hpub hstruct hdraft hbind =>
      obtain rfl := hat hb
      refine .inl ⟨rfl, (sameDraft_iff_not_prunes rfl hbind).mpr fun hp => ?_⟩
      exact hno (.publishStructure hok hstruct hdraft hp)
    | cascade => exact absurd rfl (hc _ _ _ _ _ _)

theorem counted_apply (h : Reachable t) (hst : stateOf t id b = some st)
    (hno : ¬ Overlooked t id b st cmd now) :
    ∃ st', stateOf (apply cmd now t).store id b = some st' ∧ Counted st st' := by
  have ht := wellPlaced_of_reach h
  have hr := rooted_reach h
  have hn := named_of_stateOf ht hst
  have hsame : branchAt (apply cmd now t).store id b = branchAt t id b →
      ∃ st', stateOf (apply cmd now t).store id b = some st' ∧ Counted st st' := by
    intro h
    exact ⟨st, by rw [← state_branchAt, h]; exact hst, .inl ⟨rfl, .refl st⟩⟩
  cases hres : (apply cmd now t).result with
  | error e => exact hsame (branchAt_of_error ht hres hn)
  | ok events =>
    by_cases hc : removesBranches cmd
    · obtain ⟨s, hs, hstore, -⟩ := apply_ok hres
      refine hsame ?_
      rw [hstore]
      cases cmd <;> try exact hc.elim
      case projectDelete q o =>
        refine funext fun x => ?_
        rw [branchAt, projectDelete_keys ht hs fun h => (x.keyOfProject id b).not_outside hn.plain.1 h.outside, if_neg]
        · rfl
        · rw [startsWith_projectKey (plain_of_projectDelete ht hs) (x.keyOfProject id b)]
          exact fun hpre => hno (.projectDelete ⟨events, hres⟩ hpre)
      case branchDelete p b' o =>
        refine funext fun x => ?_
        rw [branchAt, branchDelete_keys hs, if_neg]
        · rfl
        · intro hpre
          obtain ⟨_, hst', -⟩ := getBranchState_bind hs
          have hn' := named_of_stateOf ht hst'
          obtain ⟨tail, htail⟩ := under_of_branchPrefix hn'.plain.1 hpre
          obtain ⟨tail', htail'⟩ := x.under hn
          rw [htail'] at htail
          simp only [List.cons.injEq, true_and] at htail
          obtain rfl := htail.1
          have := (startsWith_branchPrefix hn'.plain.2 (x.keyOfBranch id b)).mp hpre
          exact hno (.branchDelete ⟨events, hres⟩ this)
    by_cases hshared : ∃ c r o ts mode policy, cmd = .sharedPublish c r o ts mode policy
    · obtain ⟨c, r, o, ts, mode, policy, rfl⟩ := hshared
      obtain ⟨s, hs, hstore, -⟩ := apply_ok hres
      obtain ⟨st', hst', hb, hrev, hv, -⟩ := (sharedPublish_advances h hs).some id b st hn hst
      rw [hst] at hv
      exact ⟨st', hstore ▸ hst', .inl ⟨hrev, (sameDraft_iff_not_drifts hv hb).mpr fun hd => hno (.sharedPublish ⟨events, hres⟩ hd)⟩⟩
    · refine (apply_course ht hr hc now).invariant
        (I := fun id' b' br => id' = id → b' = b → ∃ st', br.state = some st' ∧ Counted st st') ?_ ?_ id b hn rfl rfl
      · intro id' b' br events' ws br' _ hI hmove hid hb
        subst hid hb
        obtain ⟨st₁, hbr, -⟩ := hI rfl rfl
        exact hmove.counted ⟨events, hres⟩ hst hno (fun c r o ts mode policy e => hshared ⟨_, _, _, _, _, _, e⟩) hbr
      · intro id' b' _ hid hb
        subst hid hb
        exact ⟨st, hst, .inl ⟨rfl, .refl st⟩⟩

/-- Along a run no step of which is overlooked the revision grows, and the draft changes only with it. -/
theorem counted_run (log : List (Command × Int)) :
    ∀ {t : Store}, Reachable t → ∀ {st}, stateOf t id b = some st →
      (∀ l e, l ++ [e] <+: log → ∀ st, stateOf (runFrom t l) id b = some st →
        ¬ Overlooked (runFrom t l) id b st e.1 e.2) →
      ∃ st', stateOf (runFrom t log) id b = some st' ∧ st.draftRev ≤ st'.draftRev ∧
        (st'.draftRev = st.draftRev → SameDraft st st') := by
  induction log with
  | nil => exact fun _ st hst _ => ⟨st, hst, Nat.le_refl _, fun _ => .refl st⟩
  | cons e log ih =>
    intro t ht st hst hno
    obtain ⟨st₁, hst₁, hcount⟩ := counted_apply ht hst
      (hno [] e ⟨log, rfl⟩ st hst)
    obtain ⟨st', hst', hle, hsame⟩ := ih (.step e.1 e.2 ht trivial) hst₁ fun l e' hpre st hst =>
      hno (e :: l) e' (List.cons_prefix_cons.mpr ⟨rfl, hpre⟩) st hst
    refine ⟨st', hst', ?_, fun hrev => ?_⟩
    · rcases hcount with ⟨h, -⟩ | h <;> omega
    · rcases hcount with ⟨h, hdraft⟩ | h
      · exact hdraft.trans (hsame (hrev.trans h.symm))
      · omega

omit [SerdeJson] in
theorem not_sameDraft_cleared (h : HasItem st.valueDraft) (hv : st'.valueDraft = ∅) : ¬ SameDraft st st' := by
  obtain ⟨g, k, hitem⟩ := h
  intro hsame
  have := hsame.1 g k
  rw [hv, item?_empty] at this
  exact hitem this.symm

theorem Move.cleared {ws : List VersionWrite} {br br' : Branch} (hbr : br.state = some st) (hbr' : br'.state = some st')
    (hcmd : (∃ c r o ts policy, cmd = .publish id b c r o ts policy) ∨
      ∃ rule c r o ts policy, cmd = .grayPublish id b rule c r o ts policy)
    (h : Move t id b cmd br events ws br') : st'.valueDraft = ∅ := by
  cases h with
  | create hs => cases hs.symm.trans hbr
  | edit hb hs h =>
    rw [Branch.state_become] at hbr'
    obtain rfl := Option.some.inj hbr'
    rcases hcmd with ⟨_, _, _, _, _, rfl⟩ | ⟨_, _, _, _, _, _, rfl⟩ <;> cases h
    rfl
  | release record hs ho h =>
    rw [Branch.state_become] at hbr'
    obtain rfl := Option.some.inj hbr'
    rcases hcmd with ⟨_, _, _, _, _, rfl⟩ | ⟨_, _, _, _, _, _, rfl⟩ <;> cases h
    rfl

/-- The move that a request makes leaves no draft, or writes the one there is anew. -/
theorem Move.redrafted {ws : List VersionWrite} {br br' : Branch} {req : ProjectId × BranchName × String}
    (hbr : br.state = some st) (hbr' : br'.state = some st') (hreq : branchRequest cmd = some req)
    (h : Move t id b cmd br events ws br') :
    st'.valueDraft = ∅ ∨ st'.valueDraft = rereadDraft st.valueDraft ∧ st'.sharedBindings = st.sharedBindings := by
  cases h with
  | create hs => cases hs.symm.trans hbr
  | edit hb hs h =>
    obtain rfl := Option.some.inj (hs.symm.trans hbr)
    rw [Branch.state_become] at hbr'
    obtain rfl := Option.some.inj hbr'
    cases h with
    | draft => cases hreq
    | grayPublish => exact .inl rereadDraft_empty
    | grayAbort => exact .inr ⟨rfl, rfl⟩
  | release record hs ho h =>
    obtain rfl := Option.some.inj (hs.symm.trans hbr)
    rw [Branch.state_become] at hbr'
    obtain rfl := Option.some.inj hbr'
    cases h with
    | publish => exact .inl rereadDraft_empty
    | rollback => exact .inr ⟨rfl, rfl⟩
    | grayPromote => exact .inr ⟨rfl, rfl⟩
    | restructure => cases hreq
    | cascade => cases hreq

theorem removed_of_overlooked (ht : WellPlaced t) (hn : Named id b) (hc : removesBranches cmd)
    (h : Overlooked t id b st cmd now) : stateOf (apply cmd now t).store id b = none := by
  cases h with
  | publish | grayPublish | publishStructure | sharedPublish => exact hc.elim
  | rewritten hreq =>
    cases cmd <;> try exact hc.elim
    all_goals cases hreq
  | @branchDelete b' o now hok hpre =>
    obtain ⟨events, hok⟩ := hok
    obtain ⟨s, hs, hstore, -⟩ := apply_ok hok
    have hb' : Plain b' := by
      obtain ⟨_, hst₁, -⟩ := getBranchState_bind hs
      exact (named_of_stateOf ht hst₁).plain.2
    have hkey := (startsWith_branchPrefix hb' (keyOfBranch_stateKey id b)).mpr hpre
    rw [hstore, stateOf, entity, branchDelete_keys hs, if_pos hkey]
    rfl
  | @projectDelete q o now hok hpre =>
    obtain ⟨events, hok⟩ := hok
    obtain ⟨s, hs, hstore, -⟩ := apply_ok hok
    have hproject : KeyOfProject id (branchStateKey id b) := Slot.keyOfProject .state id b
    have hkey := (startsWith_projectKey (plain_of_projectDelete ht hs) hproject).mpr hpre
    rw [hstore, stateOf, entity, projectDelete_keys ht hs fun h => hproject.not_outside hn.plain.1 h.outside, if_pos hkey]
    rfl

theorem pruned_of_overlooked (ht : WellPlaced t) (hst : stateOf t id b = some st) {c r o : String} {ts : Int}
    {policy : PublishPolicy} (hok : (apply (.publishStructure id c r o ts policy) now t).result = .ok events)
    {struct : Structure} {draft : StructureDraft} (hstruct : structOf t id = some struct)
    (hdraft : entity StructureDraft t (structDraftKey id) = some draft)
    (hprunes : Prunes t { version := struct.version + 1, groups := draft.groups } st ∨ Drifts 1 st)
    (hst' : stateOf (apply (.publishStructure id c r o ts policy) now t).store id b = some st') : ¬ SameDraft st st' := by
  obtain ⟨st₁, struct', hst₁, hstruct', hv, hb⟩ := apply_restructured ht hok (named_of_stateOf ht hst) hst'
  obtain rfl := Option.some.inj (hst.symm.trans hst₁)
  obtain ⟨s, hs, hstore, -⟩ := apply_ok hok
  obtain ⟨struct₁, draft₁, hstruct₁, hdraft₁, -, hnew, -⟩ := applyPublishStructure_moves (o := o) ht ts hs
  obtain rfl := Option.some.inj (hstruct.symm.trans hstruct₁)
  obtain rfl := Option.some.inj (hdraft.symm.trans hdraft₁)
  rw [hstore, hnew] at hstruct'
  obtain rfl := Option.some.inj hstruct'
  rw [sameDraft_iff_not_prunes hv hb, not_not]
  exact hprunes

theorem Overlooked.changes (hreach : Reachable t) (hst : stateOf t id b = some st) (h : Overlooked t id b st cmd now)
    (hst' : stateOf (apply cmd now t).store id b = some st') : ¬ SameDraft st st' := by
  have ht := wellPlaced_of_reach hreach
  have hgone : ¬ removesBranches cmd := by
    intro hc
    rw [removed_of_overlooked ht (named_of_stateOf ht hst) hc h] at hst'
    cases hst'
  have hmoved : ∀ {r}, branchRequest cmd = some (id, b, r) → (∃ events, (apply cmd now t).result = .ok events) →
      st.lastRequestId ≠ some r → ∃ br events ws br', br.state = some st ∧ br'.state = some st' ∧
        Move t id b cmd br events ws br' := by
    intro r hreq ⟨events, hok⟩ hr
    obtain ⟨s, hs, hstore, -⟩ := apply_ok hok
    rcases request_moves ht hreq hs with ⟨st₁, hst₁, hr₁, -⟩ | hmoves
    · obtain rfl := Option.some.inj (hst.symm.trans hst₁)
      exact absurd hr₁ hr
    · obtain ⟨ws, hmove, -⟩ := hmoves.move
      rw [hstore, ← state_branchAt] at hst'
      exact ⟨_, events, ws, _, state_branchAt .. ▸ hst, hst', hmove⟩
  cases h with
  | publish hok hr hitem =>
    obtain ⟨_, _, _, _, hbr, hbr', hmove⟩ := hmoved rfl hok hr
    exact not_sameDraft_cleared hitem (hmove.cleared hbr hbr' (.inl ⟨_, _, _, _, _, rfl⟩))
  | grayPublish hok hr hitem =>
    obtain ⟨_, _, _, _, hbr, hbr', hmove⟩ := hmoved rfl hok hr
    exact not_sameDraft_cleared hitem (hmove.cleared hbr hbr' (.inr ⟨_, _, _, _, _, _, rfl⟩))
  | publishStructure hok hstruct hdraft hprunes =>
    obtain ⟨events, hok⟩ := hok
    exact pruned_of_overlooked ht hst hok hstruct hdraft hprunes hst'
  | rewritten hreq hok hr hdrift =>
    obtain ⟨_, _, _, _, hbr, hbr', hmove⟩ := hmoved hreq hok hr
    rcases hmove.redrafted hbr hbr' hreq with hv | ⟨hv, hb⟩
    · obtain ⟨g, k, dv, hitem, -⟩ := hdrift
      exact not_sameDraft_cleared ⟨g, k, by rw [hitem]; exact Option.some_ne_none dv⟩ hv
    · exact fun hsame => (sameDraft_iff_not_drifts (n := 1) hv hb).mp hsame hdrift
  | sharedPublish hok hdrift =>
    obtain ⟨events, hok⟩ := hok
    obtain ⟨s, hs, hstore, -⟩ := apply_ok hok
    obtain ⟨st₁, hst₁, hb, -, hv, -⟩ := (sharedPublish_advances hreach hs).some id b st (named_of_stateOf ht hst) hst
    obtain rfl := Option.some.inj ((hstore ▸ hst').symm.trans hst₁)
    rw [hst] at hv
    exact fun hsame => (sameDraft_iff_not_drifts hv hb).mp hsame hdrift
  | branchDelete | projectDelete => exact absurd trivial hgone

/-- An update that expects the revision a client has read goes through on the draft the client has read, which was
the same all the time, exactly if the run in between has no step that is overlooked. -/
theorem draft_unchanged_iff {t₀ : Store} (h : Reachable t₀) {st₀ : BranchState} (hst₀ : stateOf t₀ id b = some st₀)
    (log : List (Command × Int)) {us : List DraftUpdateItem} {ds : List (String × String)} {bs : List SharedBinding}
    {o : String} {ts : Int}
    (hok : (apply (.draftUpdate id b us ds bs o ts (some st₀.draftRev)) now (runFrom t₀ log)).result = .ok events) :
    (∀ l, l <+: log → ∃ st, stateOf (runFrom t₀ l) id b = some st ∧ SameDraft st₀ st) ↔
      ∀ l e, l ++ [e] <+: log → ∀ st, stateOf (runFrom t₀ l) id b = some st →
        ¬ Overlooked (runFrom t₀ l) id b st e.1 e.2 := by
  constructor
  · intro hall l e hpre st hst hover
    obtain ⟨st₁, hst₁, hsame⟩ := hall l ((List.prefix_append l [e]).trans hpre)
    obtain ⟨st', hst', hsame'⟩ := hall (l ++ [e]) hpre
    obtain rfl := Option.some.inj (hst₁.symm.trans hst)
    rw [runFrom_append] at hst'
    exact hover.changes (reachable_runFrom h l) hst hst' (hsame.symm.trans hsame')
  · intro hno l hpre
    obtain ⟨st, hst, hle, hsame⟩ := counted_run l h hst₀ fun l' e hl st hst => hno l' e (hl.trans hpre) st hst
    refine ⟨st, hst, hsame ?_⟩
    obtain ⟨rest, rfl⟩ := hpre
    obtain ⟨st', hst', hle', -⟩ := counted_run rest (reachable_runFrom h l) hst fun l' e hl st hst => by
      rw [← runFrom_append] at hst ⊢
      exact hno (l ++ l') e (by rw [List.append_assoc]; exact (List.prefix_append_right_inj l).mpr hl) st hst
    -- the revision at the end is the one that was read
    have hend : st₀.draftRev = st'.draftRev := by
      obtain ⟨s, hs, -⟩ := apply_ok hok
      obtain ⟨st₁, hst₁, hs⟩ := getBranchState_bind hs
      obtain ⟨_, hrev, -⟩ := (checkDraftRev_readOnly _ _).exec_bind_ok.mp hs
      rw [runFrom_append] at hst₁
      obtain rfl := Option.some.inj (hst'.symm.trans hst₁)
      exact checkDraftRev_ok.mp hrev _ rfl
    omega

end

end

section
attribute [local instance] sampleJson

theorem draft_unchanged_iff_sample :
    ∃ st₀, stateOf (runLog (requestLog.take 5)) "p" "x" = some st₀ ∧
      ∀ l, l <+: [(.sessionLogout, 6)] →
        ∃ st, stateOf (runFrom (runLog (requestLog.take 5)) l) "p" "x" = some st ∧ SameDraft st₀ st := by
  have hrev : (stateOf (runLog (requestLog.take 5)) "p" "x").map (·.draftRev) = some 1 := by decide +kernel
  obtain ⟨st₀, hst₀, h₁⟩ := Option.map_eq_some_iff.mp hrev
  have hok : (apply (.draftUpdate "p" "x" [⟨"g", "k", .string "w"⟩] [] [] "" 0 (some 1)) 7
      (runFrom (runLog (requestLog.take 5)) [(.sessionLogout, 6)])).result = .ok [] := by decide +kernel
  rw [← h₁] at hok
  refine ⟨st₀, hst₀, (draft_unchanged_iff (reachable_runLog _) hst₀ [(.sessionLogout, 6)] hok).mpr ?_⟩
  intro l e hpre st _ hover
  obtain ⟨rest, h⟩ := hpre
  rcases l with _ | ⟨x, l⟩
  · obtain ⟨rfl, -⟩ := List.cons.inj h
    cases hover with
    | rewritten hreq => cases hreq
  · have := congrArg List.length h
    simp at this

/-- A client reads the draft, another one publishes it, and the update of the first goes through all the same. -/
theorem draft_update_lost :
    ¬ ∀ t₀, Reachable t₀ → ∀ id b st₀, stateOf t₀ id b = some st₀ → ∀ log us ds bs o ts now events,
      (apply (.draftUpdate id b us ds bs o ts (some st₀.draftRev)) now (runFrom t₀ log)).result = .ok events →
        ∀ l, l <+: log → ∃ st, stateOf (runFrom t₀ l) id b = some st ∧ SameDraft st₀ st := by
  intro h
  have hread : (stateOf (runLog (requestLog.take 5)) "p" "x").map (fun st =>
      (st.draftRev, (item? st.valueDraft "g" "k").isSome)) = some (1, true) := by decide +kernel
  have hpublished : (stateOf (runFrom (runLog (requestLog.take 5)) [(.publish "p" "x" "" "r1" "" 0 .block, 6)]) "p" "x").map
      (fun st => (item? st.valueDraft "g" "k").isSome) = some false := by decide +kernel
  have hok : (apply (.draftUpdate "p" "x" [⟨"g", "k", .string "w"⟩] [] [] "" 0 (some 1)) 7
      (runFrom (runLog (requestLog.take 5)) [(.publish "p" "x" "" "r1" "" 0 .block, 6)])).result = .ok [] := by
    decide +kernel
  obtain ⟨st₀, hst₀, he⟩ := Option.map_eq_some_iff.mp hread
  obtain ⟨hrev, hitem⟩ := Prod.mk.inj he
  rw [← hrev] at hok
  obtain ⟨st, hst, hsame⟩ := h _ (reachable_runLog _) _ _ st₀ hst₀ _ _ _ _ _ _ _ _ hok _ (List.prefix_refl _)
  rw [hst] at hpublished
  have hgone : (item? st.valueDraft "g" "k").isSome = false := Option.some.inj hpublished
  rw [hsame.1, hitem] at hgone
  cases hgone

end

end Defing
