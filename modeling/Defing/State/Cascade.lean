import Defing.State.Announce

/-!
# The passes of a cascade

A publication of shared items goes over the branches once for each binding to
each draft. Every pass writes the branch anew, with the next version: what is
pending there is read and written again as often.
-/

namespace Defing

open KV (Prog Plain)

section
variable [SerdeJson] {id : ProjectId} {b : BranchName} {t : Store} {s s' s'' : State} {events events' : List PublishEvent}

/-! ## Events of one branch -/

omit [SerdeJson] in
theorem eventsOf_cons (e : PublishEvent) (events : List PublishEvent) (id : ProjectId) (b : BranchName) :
    eventsOf (e :: events) id b = if e.project = id ∧ e.branch = b then e :: eventsOf events id b else eventsOf events id b := by
  unfold eventsOf
  rw [List.filter_cons]
  simp

omit [SerdeJson] in
theorem eventsOf_append (events events' : List PublishEvent) (id : ProjectId) (b : BranchName) :
    eventsOf (events ++ events') id b = eventsOf events id b ++ eventsOf events' id b := List.filter_append ..

/-! ## Uses of one branch -/

omit [SerdeJson] in
theorem flatMap_eq_single {α β : Type} {l : List α} {a : α} {f : α → List β} (hl : l.Nodup) (ha : a ∈ l)
    (h : ∀ x ∈ l, x ≠ a → f x = []) : l.flatMap f = f a := by
  induction l with
  | nil => exact absurd ha List.not_mem_nil
  | cons x l ih =>
    rw [List.nodup_cons] at hl
    rw [List.flatMap_cons]
    by_cases hx : x = a
    · subst hx
      have hrest : l.flatMap f = [] := by
        rw [List.flatMap_eq_nil_iff]
        intro y hy
        exact h y (List.mem_cons_of_mem _ hy) fun e => hl.1 (e ▸ hy)
      rw [hrest, List.append_nil]
    · have hmem : a ∈ l := (List.mem_cons.mp ha).resolve_left (Ne.symm hx)
      rw [h x List.mem_cons_self hx, List.nil_append, ih hl.2 hmem fun y hy => h y (List.mem_cons_of_mem _ hy)]

theorem projectsOf_nodup (ht : WellPlaced t) : (projectsOf t).Nodup := by
  unfold projectsOf
  rw [(List.perm_insertionSort _ _).nodup_iff, List.Nodup, List.pairwise_filterMap]
  have hkeys : (rowsUnder kProject t).Pairwise fun a b => a.1 ≠ b.1 := by
    unfold rowsUnder
    refine List.Pairwise.imp ?_ (Std.ExtTreeMap.distinct_keys_toList)
    intro a b h he
    exact h (by rw [he]; exact Std.ReflCmp.compare_self)
  refine hkeys.imp_of_mem ?_
  intro a b ha hb hne p hp q hq he
  have hat : ∀ {r : String × Stored} {p : Project}, r ∈ rowsUnder kProject t → projectRow r = some p → r.1 = projectKey p.id := by
    intro r p hr hp
    unfold projectRow at hp
    split at hp
    · cases hp
    · have hrow := (mem_rowsUnder.mp hr).2
      rw [decode_exact.mp hp] at hrow
      exact (ht _ _ hrow).2.2
  rw [← he] at hq
  exact hne ((hat ha hp).trans (hat hb hq).symm)

theorem usage_of_branch (ht : WellPlaced t) (key : String) (hproj : (entity Project t (projectKey id)).isSome)
    {st : BranchState} (hst : stateOf t id b = some st) :
    (((projectsOf t).flatMap fun p => (branchesOf t p.id).flatMap fun b => usageOf t key p.id b).filter
      fun u => u.1 = id ∧ u.2.1 = b).length = (boundTo key st.sharedBindings).length := by
  have hof : ∀ id' b' u, u ∈ usageOf t key id' b' → u.1 = id' ∧ u.2.1 = b' := by
    intro id' b' u hu
    obtain ⟨_, _, _, -, -, rfl⟩ := mem_usageOf.mp hu
    exact ⟨rfl, rfl⟩
  obtain ⟨p, hp⟩ := Option.isSome_iff_exists.mp hproj
  obtain ⟨hmem, hid⟩ := projectsOf_of_entity ht hp
  have hbranch : b ∈ branchesOf t p.id := by
    rw [hid]
    exact mem_branchesOf (named_of_stateOf ht hst) hst
  rw [List.filter_flatMap, flatMap_eq_single (projectsOf_nodup ht) hmem, List.filter_flatMap,
    flatMap_eq_single (show (branchesOf t p.id).Nodup from List.nodup_dedup _) hbranch, hid]
  · have hall : (usageOf t key id b).filter (fun u => u.1 = id ∧ u.2.1 = b) = usageOf t key id b :=
      List.filter_eq_self.mpr fun u hu => by simp [hof id b u hu]
    rw [hall, usageOf, hst]
    simp
  · intro b' _ hne
    rw [List.filter_eq_nil_iff]
    intro u hu
    simp [hof _ _ u hu, hne]
  · intro q hq hne
    have hqid : q.id ≠ id := by
      intro he
      have hrow := (mem_projectsOf ht).mp hq
      have hrow' := (mem_projectsOf ht).mp hmem
      rw [he] at hrow
      rw [hid, hrow] at hrow'
      exact hne (encode_injective (Option.some.inj hrow'))
    rw [List.filter_eq_nil_iff]
    intro u hu
    obtain ⟨b', -, hu⟩ := List.mem_flatMap.mp hu
    simp [hof _ _ u hu, hqid]

/-! ## Versions one after the other -/

/-- Every branch goes on by so many versions, one for each of its events. -/
structure Advances (s s' : State) (events : List PublishEvent) (n : ProjectId → BranchName → Nat) : Prop where
  projects : ∀ id, (entity Project s.kv (projectKey id)).isSome → (entity Project s'.kv (projectKey id)).isSome
  none : ∀ id b, Named id b → stateOf s.kv id b = none → stateOf s'.kv id b = none ∧ eventsOf events id b = []
  some : ∀ id b st, Named id b → stateOf s.kv id b = some st → ∃ st', stateOf s'.kv id b = some st' ∧
    st'.sharedBindings = st.sharedBindings ∧ st'.draftRev = st.draftRev ∧
    st'.valueDraft = rereadDraft^[n id b] st.valueDraft ∧ st'.activeVersion = st.activeVersion + n id b ∧
    (eventsOf events id b).map (·.version) = List.range' (st.activeVersion + 1) (n id b)

theorem Advances.refl (s : State) : Advances s s [] fun _ _ => 0 where
  projects _ h := h
  none _ _ _ h := ⟨h, rfl⟩
  some _ _ st _ h := ⟨st, h, rfl, rfl, rfl, rfl, rfl⟩

theorem Advances.trans {n n' : ProjectId → BranchName → Nat} (h : Advances s s' events n) (h' : Advances s' s'' events' n') :
    Advances s s'' (events ++ events') fun id b => n id b + n' id b where
  projects id hp := h'.projects id (h.projects id hp)
  none id b hn hnone := by
    obtain ⟨hnone', he⟩ := h.none id b hn hnone
    obtain ⟨hnone', he'⟩ := h'.none id b hn hnone'
    rw [eventsOf_append, he, he']
    exact ⟨hnone', rfl⟩
  some id b st hn hst := by
    obtain ⟨st₁, hst₁, hb₁, hr₁, hd₁, hv₁, he₁⟩ := h.some id b st hn hst
    obtain ⟨st₂, hst₂, hb₂, hr₂, hd₂, hv₂, he₂⟩ := h'.some id b st₁ hn hst₁
    refine ⟨st₂, hst₂, hb₂.trans hb₁, hr₂.trans hr₁, ?_, by omega, ?_⟩
    · rw [hd₂, hd₁, ← Function.iterate_add_apply, Nat.add_comm]
    rw [eventsOf_append, List.map_append, he₁, he₂, hv₁, ← List.range'_append_1]
    congr 2
    omega

theorem Advances.congr {n n' : ProjectId → BranchName → Nat} (h : Advances s s' events n)
    (hn : ∀ id b st, Named id b → stateOf s.kv id b = .some st → n id b = n' id b) : Advances s s' events n' where
  projects := h.projects
  none := h.none
  some id b st hname hst := by
    rw [← hn id b st hname hst]
    exact h.some id b st hname hst

theorem Quiet.advances (hs : WellPlaced s.kv) (h : Quiet s s') : Advances s s' [] fun _ _ => 0 where
  projects id hp := by
    obtain ⟨p, hrow⟩ := Option.isSome_iff_exists.mp hp
    exact h.projects id (plain_of_validName (validName_of_project p (hs _ _ (entity_exact.mp hrow))).1) hp
  none id b hn hnone := ⟨(h.branches id b hn.plain.1 hn.plain.2).state.trans hnone, rfl⟩
  some id b st hn hst := ⟨st, (h.branches id b hn.plain.1 hn.plain.2).state.trans hst, rfl, rfl, rfl, rfl, rfl⟩

theorem cascadeToBranch_advances (hs : WellPlaced s.kv) {g k c r : String} {v : Value} {now : Int} {event : PublishEvent}
    (h : (cascadeToBranch id b g k v c r now).exec s = (.ok event, s')) :
    WellPlaced s'.kv ∧ Advances s s' [event] fun id' b' => if id' = id ∧ b' = b then 1 else 0 := by
  have hob := cascadeToBranch_obeys (T := UnderBranch id b) (D := fun _ => False) (fun _ hk => hk) g k v c r now
  have hw := frame_of_obeys h hob hs
  have hp : WellPlaced s'.kv := by simpa only [h] using wellPlaced_of_obeys hob hs
  obtain ⟨st, hst, h⟩ := getBranchState_bind h
  have hn := named_of_stateOf hs hst
  obtain ⟨old, -, h⟩ := (activeSnapshot_readOnly _ _ _).exec_bind_ok.mp h
  obtain ⟨_, s₁, -, h⟩ := Prog.exec_bind_ok.mp h
  rw [savePending_bind] at h
  obtain ⟨rfl, rfl⟩ := pure_ok.mp h
  have helse : ∀ {id' b'}, Named id' b' → ¬ (id' = id ∧ b' = b) →
      stateOf (s₁.insert (branchStateKey id b) (Codec.encode { st with activeVersion := st.activeVersion + 1 })).kv id' b' =
        stateOf s.kv id' b' := by
    intro id' b' hn' hne
    rw [← state_branchAt, ← state_branchAt, branchAt_elsewhere hw hn' hne]
  refine ⟨hp, ?_, ?_, ?_⟩
  · intro id' hproj
    obtain ⟨p, hproj⟩ := Option.isSome_iff_exists.mp hproj
    have hplain := plain_of_validName (validName_of_project p (hs _ _ (entity_exact.mp hproj))).1
    rw [entity_congr (hw _ (not_underBranch_projectKey hplain)), hproj]
    rfl
  · intro id' b' hn' hnone
    have hne : ¬ (id' = id ∧ b' = b) := by
      intro he
      rw [he.1, he.2, hst] at hnone
      cases hnone
    rw [helse hn' hne, eventsOf_cons, if_neg fun he => hne ⟨he.1.symm, he.2.symm⟩]
    exact ⟨hnone, rfl⟩
  · intro id' b' st' hn' hst'
    by_cases he : id' = id ∧ b' = b
    · obtain ⟨rfl, rfl⟩ := he
      obtain rfl := Option.some.inj (hst.symm.trans hst')
      refine ⟨_, stateOf_insert _ _, rfl, rfl, ?_, ?_, ?_⟩
      · rw [if_pos ⟨rfl, rfl⟩, Function.iterate_one, rereadState_valueDraft]
      · rw [if_pos ⟨rfl, rfl⟩, rereadState_activeVersion]
      · rw [eventsOf_cons, if_pos ⟨rfl, rfl⟩, if_pos ⟨rfl, rfl⟩]
        rfl
    · refine ⟨st', (helse hn' he).trans hst', rfl, rfl, ?_, ?_, ?_⟩
      · rw [if_neg he]
        rfl
      · rw [if_neg he]
        rfl
      · rw [if_neg he, eventsOf_cons, if_neg fun h => he ⟨h.1.symm, h.2.symm⟩]
        rfl

theorem cascade_advances {c r : String} {v : Value} {now : Int} (usage : List (ProjectId × BranchName × String × String))
    (hs : WellPlaced s.kv)
    (h : (usage.mapM fun (p, b, g, k) => cascadeToBranch p b g k v c r now).exec s = (.ok events, s')) :
    WellPlaced s'.kv ∧ Advances s s' events fun id b => (usage.filter fun u => u.1 = id ∧ u.2.1 = b).length := by
  induction usage generalizing s events with
  | nil =>
    rw [List.mapM_nil] at h
    obtain ⟨rfl, rfl⟩ := pure_ok.mp h
    exact ⟨hs, .refl _⟩
  | cons u usage ih =>
    obtain ⟨p, b, g, k⟩ := u
    rw [List.mapM_cons] at h
    obtain ⟨event, s₁, h₁, h⟩ := Prog.exec_bind_ok.mp h
    obtain ⟨events', s₂, h₂, h⟩ := Prog.exec_bind_ok.mp h
    obtain ⟨rfl, rfl⟩ := pure_ok.mp h
    obtain ⟨hs₁, hadv⟩ := cascadeToBranch_advances hs h₁
    obtain ⟨hs₂, hrest⟩ := ih hs₁ h₂
    refine ⟨hs₂, (hadv.trans hrest).congr ?_⟩
    intro id' b' _ _ _
    rw [List.filter_cons]
    by_cases he : id' = p ∧ b' = b
    · simp [he, Nat.add_comm]
    · have hne : ¬ (p = id' ∧ b = b') := fun h => he ⟨h.1.symm, h.2.symm⟩
      simp [he, hne]

/-- The versions that the drafts of shared items make of a branch. -/
def cascades (mode : SharedCascadeMode) (drafts : List SharedItem) (bindings : Bindings) : Nat :=
  match mode with
  | .manual => 0
  | .auto => (drafts.map fun item => (boundTo item.key bindings).length).sum

def cascadesOf (mode : SharedCascadeMode) (t : Store) (item : SharedItem) (id : ProjectId) (b : BranchName) : Nat :=
  match mode with
  | .manual => 0
  | .auto => ((stateOf t id b).map fun st => (boundTo item.key st.sharedBindings).length).getD 0

theorem publishShared_advances (hs : WellPlaced s.kv) (hr : Rooted s.kv) {item : SharedItem} (hk : validKeyName item.key)
    {c r : String} {now : Int} {mode : SharedCascadeMode}
    (h : (publishShared c r now mode item).exec s = (.ok events, s')) :
    WellPlaced s'.kv ∧ Advances s s' events (cascadesOf mode s.kv item) := by
  obtain ⟨v, s₁, h₁, hs₁, h⟩ := publishShared_ok hs hk h
  have hq : Quiet s s₁ := h₁ ▸ quiet_takeUp _ _
  have hadv := hq.advances hs
  unfold cascadeShared at h
  cases mode with
  | manual =>
    rw [if_pos rfl] at h
    obtain ⟨rfl, rfl⟩ := pure_ok.mp h
    exact ⟨hs₁, hadv⟩
  | auto =>
    rw [if_neg (by decide)] at h
    obtain ⟨usage, hu, h⟩ := (sharedUsage_readOnly _).exec_bind_ok.mp h
    rw [sharedUsage_eval hs₁, Except.ok.injEq] at hu
    subst hu
    obtain ⟨hs', hrest⟩ := cascade_advances _ hs₁ h
    refine ⟨hs', (hadv.trans hrest).congr ?_⟩
    intro id b st hn hst
    have hroot := hadv.projects id (hr id b hn (by rw [hst]; rfl))
    have hst₁ := (hq.branches id b hn.plain.1 hn.plain.2).state.trans hst
    rw [usage_of_branch hs₁ item.key hroot hst₁, cascadesOf, hst, Nat.zero_add]
    rfl

theorem Rooted.advances {n : ProjectId → BranchName → Nat} (hr : Rooted s.kv) (h : Advances s s' events n) : Rooted s'.kv := by
  intro id b hn hst
  apply h.projects
  apply hr id b hn
  rw [Option.isSome_iff_ne_none] at hst ⊢
  exact fun hnone => hst (h.none id b hn hnone).1

theorem publishDrafts_advances {c r : String} {now : Int} {mode : SharedCascadeMode} (drafts : List SharedItem)
    (hs : WellPlaced s.kv) (hr : Rooted s.kv) (hk : ∀ item ∈ drafts, validKeyName item.key)
    (h : (collect (publishShared c r now mode) drafts).exec s = (.ok events, s')) :
    Advances s s' events fun id b => ((stateOf s.kv id b).map fun st => cascades mode drafts st.sharedBindings).getD 0 := by
  induction drafts generalizing s events with
  | nil =>
    obtain ⟨rfl, rfl⟩ := pure_ok.mp h
    refine (Advances.refl _).congr ?_
    intro id b st _ hst
    rw [hst]
    cases mode <;> rfl
  | cons item drafts ih =>
    obtain ⟨events₁, s₁, h₁, h⟩ := Prog.exec_bind_ok.mp h
    obtain ⟨events₂, s₂, h₂, h⟩ := Prog.exec_bind_ok.mp h
    obtain ⟨rfl, rfl⟩ := pure_ok.mp h
    obtain ⟨hs₁, hadv⟩ := publishShared_advances hs hr (hk item (by simp)) h₁
    have hrest := ih hs₁ (hr.advances hadv) (fun item' hm => hk item' (by simp [hm])) h₂
    refine (hadv.trans hrest).congr ?_
    intro id b st hn hst
    obtain ⟨st₁, hst₁, hb₁, -⟩ := hadv.some id b st hn hst
    rw [hst₁, hst]
    cases mode with
    | manual => rfl
    | auto => simp [cascades, cascadesOf, hb₁, hst]

/-- A publication of shared items takes each branch on by its bindings to the drafts. -/
theorem sharedPublish_advances (h : Reachable t) {c r o : String} {ts now : Int} {mode : SharedCascadeMode}
    {policy : PublishPolicy} (hs : execute (.sharedPublish c r o ts mode policy) now t = (.ok events, s)) :
    Advances ⟨t, []⟩ s events fun id b =>
      ((stateOf t id b).map fun st => cascades mode (draftsOf t) st.sharedBindings).getD 0 := by
  have ht := wellPlaced_of_reach h
  change (applySharedPublish c r (effTs ts now) o mode policy).exec ⟨t, []⟩ = _ at hs
  obtain ⟨drafts, hd, hs⟩ := listSharedDrafts_readOnly.exec_bind_ok.mp hs
  obtain ⟨_, -, hs⟩ := (ensure_readOnly _ _).exec_bind_ok.mp hs
  have hkeys := listSharedDrafts_eval ht hd
  obtain rfl := Except.ok.inj ((listSharedDrafts_eq t).symm.trans hd)
  exact publishDrafts_advances _ ht (rooted_reach h) hkeys hs

end

end Defing
