import Defing.State.Rewrap

/-!
# A run of the renewal

The pass reads a row as its key says. Of a row that it reads as what it is it
renews the secrets, a row that it reads as something else it leaves alone, and
so does the run over all rows.
-/

namespace Defing

open KV (Prog Plain segments Rewrites)

section
variable {f : Renewal} {newest : Ciphertext → Prop} {t : Store} {k : String} {v : Stored} {id : ProjectId} {b : BranchName}
  {n : Nat}

/-! ## How keys are read -/

theorem endsWith_iff {suffix : String} : endsWith suffix k = true ↔ suffix.toList <:+ k.toList := List.isSuffixOf_iff_suffix

theorem endsWith_append (stem suffix : String) : endsWith suffix (stem ++ suffix) = true :=
  endsWith_iff.mpr ⟨stem.toList, by simp⟩

theorem contains_iff {part : String} : contains part k = true ↔ part.toList <:+: k.toList := decide_eq_true_iff

theorem getLast_of_endsWith {x : String} (hx : Plain x) (h : endsWith ("/" ++ x) k = true) :
    (segments k).getLast? = some x := by
  obtain ⟨init, hinit⟩ := KV.segments_of_suffix hx (by simpa using endsWith_iff.mp h)
  rw [hinit, List.getLast?_concat]

theorem mem_of_contains {x : String} (hx : Plain x) (h : contains ("/" ++ x ++ "/") k = true) : x ∈ segments k :=
  KV.mem_segments_of_infix hx (by simpa using contains_iff.mp h)

/-- A key whose last segment is another one has not this ending. -/
theorem not_endsWith {x y : String} (hx : Plain x) (hk : (segments k).getLast? = some y) (hne : y ≠ x) :
    ¬ endsWith ("/" ++ x) k = true := by
  intro h
  rw [getLast_of_endsWith hx h, Option.some.injEq] at hk
  exact hne hk.symm

theorem repr_ne {x : String} (hx : ¬ x.toList.all Char.isDigit = true) (n : Nat) : n.repr ≠ x := by
  rintro rfl
  refine hx (List.all_eq_true.mpr fun c hc => ?_)
  rw [Nat.toList_repr] at hc
  exact Nat.isDigit_of_mem_toDigits (by omega) (by omega) hc

theorem not_startsWith_shared (hk : k.toList.head? = some 'p') :
    ¬ (startsWith kShared k || startsWith kSharedDraft k) = true := by
  intro h
  rw [Bool.or_eq_true, startsWith_iff, startsWith_iff] at h
  rcases h with ⟨c, hc⟩ | ⟨c, hc⟩
  · simp [← hc, kShared] at hk
  · simp [← hc, kSharedDraft] at hk

/-! ## Rows that are passed over -/

theorem head_branchStateKey (id : ProjectId) (b : BranchName) : (branchStateKey id b).toList.head? = some 'p' := by
  simp [branchStateKey, kProject]

theorem head_shared {key : String} (hk : k = sharedKey key ∨ k = sharedDraftKey key) : k.toList.head? = some 's' := by
  rcases hk with rfl | rfl <;> simp [sharedKey, sharedDraftKey, kShared, kSharedDraft]

theorem last_branchStateKey (id : ProjectId) (b : BranchName) : (segments (branchStateKey id b)).getLast? = some "state" := by
  rw [show branchStateKey id b = kProject ++ id ++ kBranch ++ b ++ "/" ++ "state" from
      String.toList_inj.mp (by simp [branchStateKey, kState]), KV.segments_append,
    KV.segments_plain (a := "state") (by simp [Plain]), List.getLast?_concat]

theorem sharedDraftKey_inj {key key' : String} : sharedDraftKey key = sharedDraftKey key' ↔ key = key' := by
  rw [← String.toList_inj, ← String.toList_inj]
  simp [sharedDraftKey]

theorem not_passedOver (hhead : k.toList.head? = some 'p') (hlast : (segments k).getLast? ≠ some "state") :
    ¬ PassedOver k := by
  intro h
  rcases h with ⟨key, -, hk⟩ | ⟨id, b, -, rfl⟩
  · simp [head_shared hk] at hhead
  · exact hlast (last_branchStateKey id b)

theorem passedOver_branchStateKey (hn : Named id b) :
    PassedOver (branchStateKey id b) ↔ id = "gray-snap" ∨ b = "gray-snap" := by
  constructor
  · intro h
    rcases h with ⟨key, -, hk⟩ | ⟨id', b', hg, h⟩
    · have := head_shared hk
      simp [head_branchStateKey] at this
    · obtain ⟨rfl, rfl⟩ := branchStateKey_inj hn.plain.1 hn.plain.2 h.symm
      exact hg
  · intro h
    exact .inr ⟨id, b, h, rfl⟩

theorem passedOver_shared {key : String} (hk : k = sharedKey key ∨ k = sharedDraftKey key) :
    PassedOver k ↔ key = "snap" ∨ key = "diff" := by
  constructor
  · intro h
    rcases h with ⟨key', hkey', h⟩ | ⟨id, b, -, rfl⟩
    · have e : key = key' := by
        rcases hk with rfl | rfl <;> rcases h with h | h
        · exact sharedKey_inj.mp h
        · exact absurd h sharedKey_ne_sharedDraftKey
        · exact absurd h.symm sharedKey_ne_sharedDraftKey
        · exact sharedDraftKey_inj.mp h
      subst e
      simpa using hkey'
    · have := head_shared hk
      simp [head_branchStateKey] at this
  · intro h
    exact .inl ⟨key, by simpa using h, hk⟩

/-! ## What a row is read as -/

theorem last_digits (hlast : (segments k).getLast? = some n.repr) :
    ¬ endsWith "/snap" k = true ∧ ¬ endsWith "/diff" k = true :=
  ⟨not_endsWith (x := "snap") (by simp [Plain]) hlast (repr_ne (by decide) n),
    not_endsWith (x := "diff") (by simp [Plain]) hlast (repr_ne (by decide) n)⟩

variable [SerdeJson]

theorem rewrapRow_snapshotKey (m : Nat) :
    rewrapRow f n (snapshotKey id b m, v) = rewrapAs (rewrapSnapshot f) (snapshotKey id b m) v n := by
  have hs : endsWith "/snap" (snapshotKey id b m) = true := endsWith_append _ _
  rw [rewrapRow, if_pos hs]

theorem rewrapRow_graySnapKey (hn : Named id b) (m : Nat) :
    rewrapRow f n (graySnapKey id b m, v) = rewrapAs (rewrapSnapshot f) (graySnapKey id b m) v n := by
  obtain ⟨hs, hd⟩ := last_digits (n := m) (k := graySnapKey id b m) (by rw [segments_graySnapKey hn.plain.1 hn.plain.2]; rfl)
  have hg : contains kGraySnap (graySnapKey id b m) = true :=
    contains_iff.mpr ⟨(kProject ++ id ++ kBranch ++ b).toList, (toString m).toList, by simp [graySnapKey]⟩
  rw [rewrapRow, if_neg hs, if_neg hd, if_neg (not_startsWith_shared (by simp [graySnapKey, kProject])), if_pos hg]

theorem rewrapRow_diffKey (hn : Named id b) (m : Nat) :
    rewrapRow f n (diffKey id b m, v) = rewrapAs (rewrapDiff f) (diffKey id b m) v n := by
  have hs : ¬ endsWith "/snap" (diffKey id b m) = true :=
    not_endsWith (x := "snap") (y := "diff") (by simp [Plain]) (by rw [segments_diffKey hn.plain.1 hn.plain.2]; rfl) (by simp)
  have hd : endsWith "/diff" (diffKey id b m) = true := endsWith_append _ _
  rw [rewrapRow, if_neg hs, if_pos hd]

omit [SerdeJson] in
theorem endsWith_shared {x key : String} (hx : Plain x) (hk : k = sharedKey key ∨ k = sharedDraftKey key)
    (hkey : Plain key) : endsWith ("/" ++ x) k = true ↔ key = x := by
  have hlast : (segments k).getLast? = some key := by
    rcases hk with rfl | rfl
    · rw [segments_sharedKey, KV.segments_plain hkey]
      rfl
    · rw [segments_sharedDraftKey, KV.segments_plain hkey]
      rfl
  constructor
  · intro h
    rw [getLast_of_endsWith hx h, Option.some.injEq] at hlast
    exact hlast.symm
  · rintro rfl
    rcases hk with rfl | rfl
    · exact endsWith_iff.mpr ⟨"sh".toList, by simp [sharedKey, kShared]⟩
    · exact endsWith_iff.mpr ⟨"sh-draft".toList, by simp [sharedDraftKey, kSharedDraft]⟩

theorem rewrapRow_shared {item : SharedItem} (hkey : Plain item.key)
    (hk : k = sharedKey item.key ∨ k = sharedDraftKey item.key) :
    rewrapRow f n (k, .shared item) =
      if item.key = "snap" ∨ item.key = "diff" then pure n else rewrapAs (rewrapShared f) k (.shared item) n := by
  have hsnap : endsWith "/snap" k = true ↔ item.key = "snap" :=
    endsWith_shared (x := "snap") (by simp [Plain]) hk hkey
  have hdiff : endsWith "/diff" k = true ↔ item.key = "diff" :=
    endsWith_shared (x := "diff") (by simp [Plain]) hk hkey
  have hshared : (startsWith kShared k || startsWith kSharedDraft k) = true := by
    rw [Bool.or_eq_true, startsWith_iff, startsWith_iff]
    rcases hk with rfl | rfl
    · exact .inl ⟨item.key.toList, by simp [sharedKey]⟩
    · exact .inr ⟨item.key.toList, by simp [sharedDraftKey]⟩
  rw [rewrapRow]
  -- what is named like the rows of versions is read as one, and does not parse
  by_cases hs : item.key = "snap"
  · rw [if_pos (hsnap.mpr hs), if_pos (.inl hs)]
    rfl
  · by_cases hd : item.key = "diff"
    · rw [if_neg (fun h => hs (hsnap.mp h)), if_pos (hdiff.mpr hd), if_pos (.inr hd)]
      rfl
    · rw [if_neg (fun h => hs (hsnap.mp h)), if_neg (fun h => hd (hdiff.mp h)), if_pos hshared, if_neg (by simp [hs, hd])]

omit [SerdeJson] in
theorem contains_graySnap (hn : Named id b) :
    contains kGraySnap (branchStateKey id b) = true ↔ id = "gray-snap" ∨ b = "gray-snap" := by
  constructor
  · intro h
    have := mem_of_contains (x := "gray-snap") (by simp [Plain]) h
    rw [segments_branchStateKey hn.plain.1 hn.plain.2] at this
    simpa [eq_comm] using this
  · intro h
    rcases h with rfl | rfl
    · exact contains_iff.mpr ⟨"p".toList, ("b/" ++ b ++ kState).toList,
        by simp [branchStateKey, kGraySnap, kProject, kBranch, kState]⟩
    · exact contains_iff.mpr ⟨("p/" ++ id ++ "/b").toList, "state".toList,
        by simp [branchStateKey, kGraySnap, kProject, kBranch, kState]⟩

theorem rewrapRow_branchStateKey (hn : Named id b) (st : BranchState) :
    rewrapRow f n (branchStateKey id b, .branchState st) =
      if id = "gray-snap" ∨ b = "gray-snap" then pure n
      else rewrapAs (rewrapDraft f) (branchStateKey id b) (.branchState st) n := by
  have hlast := last_branchStateKey id b
  have hs : ¬ endsWith "/snap" (branchStateKey id b) = true :=
    not_endsWith (x := "snap") (by simp [Plain]) hlast (by simp)
  have hd : ¬ endsWith "/diff" (branchStateKey id b) = true :=
    not_endsWith (x := "diff") (by simp [Plain]) hlast (by simp)
  rw [rewrapRow, if_neg hs, if_neg hd, if_neg (not_startsWith_shared (head_branchStateKey id b))]
  by_cases hg : id = "gray-snap" ∨ b = "gray-snap"
  · rw [if_pos ((contains_graySnap hn).mpr hg), if_pos hg]
    rfl
  · have hstrip : stripPrefix kProject (branchStateKey id b) = some (id ++ kBranch ++ b ++ kState) := by
      rw [show branchStateKey id b = kProject ++ (id ++ kBranch ++ b ++ kState) from
        String.toList_inj.mp (by simp [branchStateKey]), stripPrefix_append]
    have hb : contains kBranch (id ++ kBranch ++ b ++ kState) = true :=
      contains_iff.mpr ⟨id.toList, (b ++ kState).toList, by simp⟩
    have he : endsWith kState (branchStateKey id b) = true := endsWith_append _ _
    rw [if_neg (fun h => hg ((contains_graySnap hn).mp h)), if_neg hg, hstrip]
    exact if_pos (by rw [hb, he]; rfl)

theorem rewrapRow_else (hsnap : (Codec.decode v : Option SnapshotMap) = none) (hdiff : (Codec.decode v : Option (List DiffEntry)) = none)
    (hshared : (Codec.decode v : Option SharedItem) = none) (hstate : (Codec.decode v : Option BranchState) = none) :
    rewrapRow f n (k, v) = pure n := by
  have hno : ∀ {α : Type} [Codec α] (pass : α → Except Error (α × Bool)), (Codec.decode v : Option α) = none →
      rewrapAs pass k v n = pure n := by
    intro α _ pass hv
    rw [rewrapAs, hv]
  rw [rewrapRow]
  simp only [hno _ hsnap, hno _ hdiff, hno _ hshared, hno _ hstate, ite_self]
  cases stripPrefix kProject k <;> simp only [ite_self]

/-! ## One row -/

open Classical in
/-- What a renewal makes of the row at a key: one with an old secret is read, renewed and printed as a whole. -/
noncomputable def after (f : Renewal) (newest : Ciphertext → Prop) (k : String) (v : Stored) : Stored :=
  if PassedOver k ∨ v.Renewed newest then v else (v.mapValues rereadValue).rewrap (renewed f)

abbrev Buffer := KV.Buf String Stored VersionWrite

def Passes (f : Renewal) (newest : Ciphertext → Prop) (k : String) (v : Stored) : Prop :=
  ∀ (n : Nat) (b : Buffer), b.store[k]? = some v →
    ∃ c, (rewrapRow f n (k, v)).run b = (.ok (n + c), { b with store := b.store.insert k (after f newest k v) }) ∧
      (0 < c ↔ ¬ PassedOver k ∧ ¬ v.Renewed newest)

section
variable {α : Type} [Codec α] {pass : α → Except Error (α × Bool)} {needs : α → Prop} {g : α → α}

theorem run_rewrapAs_kept (hp : Rewrites pass needs g) (a : α) (hn : ¬ needs (Codec.reread a)) (b : Buffer) :
    (rewrapAs pass k (Codec.encode a) n).run b = (.ok n, b) := by
  obtain ⟨changed, hpass, hchanged⟩ := hp.run (Codec.reread a)
  rw [rewrapAs, decode_encode]
  simp only [hpass, show changed = false by simpa [hn] using hchanged]
  rfl

theorem run_rewrapAs_saved (hp : Rewrites pass needs g) (a : α) (hn : needs (Codec.reread a)) (b : Buffer) :
    (rewrapAs pass k (Codec.encode a) n).run b =
      (.ok (n + 1), { b with store := b.store.insert k (Codec.encode (g (Codec.reread a))) }) := by
  obtain ⟨changed, hpass, hchanged⟩ := hp.run (Codec.reread a)
  rw [rewrapAs, decode_encode]
  simp only [hpass, hchanged.mpr hn]
  rfl

end

theorem passes_of_kept (hk : PassedOver k ∨ v.Renewed newest)
    (hrow : ∀ (n : Nat) (b : Buffer), (rewrapRow f n (k, v)).run b = (.ok n, b)) : Passes f newest k v := by
  intro n b hb
  refine ⟨0, ?_, by simpa [imp_iff_not_or] using hk⟩
  rw [hrow, after, if_pos hk, KV.insert_of_getElem? hb]
  rfl

theorem passes_of_read {α : Type} [Codec α] {pass : α → Except Error (α × Bool)} {needs : α → Prop} {g : α → α}
    (hp : Rewrites pass needs g) {a : α} (hk : ¬ PassedOver k) (hrow : ∀ n, rewrapRow f n (k, Codec.encode a) = rewrapAs pass k (Codec.encode a) n)
    (hg : Codec.encode (g (Codec.reread a)) = ((Codec.encode a).mapValues rereadValue).rewrap (renewed f))
    (hneeds : needs (Codec.reread a) ↔ ¬ (Codec.encode a).Renewed newest) : Passes f newest k (Codec.encode a) := by
  by_cases hn : needs (Codec.reread a)
  · intro n b _
    refine ⟨1, ?_, by simp [hk, hneeds.mp hn]⟩
    rw [hrow, run_rewrapAs_saved hp a hn, hg, after, if_neg (not_or.mpr ⟨hk, hneeds.mp hn⟩)]
  · have hnew : (Codec.encode a).Renewed newest := not_not.mp fun h => hn (hneeds.mpr h)
    exact passes_of_kept (.inr hnew) fun n b => by rw [hrow, run_rewrapAs_kept hp a hn]

theorem passes_of_placed (hf : Renews f newest) (hp : Placed k v) (hbare : v.Bare) : Passes f newest k v := by
  have hkept : (∀ n, rewrapRow f n (k, v) = pure n) → PassedOver k ∨ v.Renewed newest → Passes f newest k v :=
    fun hrow hk => passes_of_kept hk fun n b => by rw [hrow]; rfl
  have hsame : ¬ (v.mapValues rereadValue).Renewed newest ↔ ¬ v.Renewed newest := not_congr renewed_reread
  cases v
  case snapshot snap =>
    obtain ⟨id, b, m, hn, ⟨-, rfl⟩ | rfl⟩ := hp
    · refine passes_of_read (rewrites_snapshot hf) (not_passedOver ?_ ?_) (fun n => rewrapRow_snapshotKey m) rfl hsame
      · simp [snapshotKey, kProject]
      · rw [segments_snapshotKey hn.plain.1 hn.plain.2]
        simp
    · refine passes_of_read (rewrites_snapshot hf) (not_passedOver ?_ ?_) (fun n => rewrapRow_graySnapKey hn m) rfl hsame
      · simp [graySnapKey, kProject]
      · rw [segments_graySnapKey hn.plain.1 hn.plain.2]
        simpa using repr_ne (by decide) m
  case diff d =>
    obtain ⟨id, b, m, hn, -, rfl⟩ := hp
    refine passes_of_read (rewrites_diff hf) (not_passedOver ?_ ?_) (fun n => rewrapRow_diffKey hn m) ?_
      ((needs_of_bare (bare_mapValues hbare)).trans hsame)
    · simp [diffKey, kProject]
    · rw [segments_diffKey hn.plain.1 hn.plain.2]
      simp
    · exact rewrapUpsert_of_bare (bare_mapValues hbare)
  case shared item =>
    obtain ⟨hkey, hk⟩ := hp
    have hrow := fun n => rewrapRow_shared (f := f) (n := n) (plain_of_validKeyName hkey) hk
    by_cases hpo : PassedOver k
    · exact hkept (fun n => (hrow n).trans (if_pos ((passedOver_shared hk).mp hpo))) (.inl hpo)
    · refine passes_of_read (rewrites_shared hf) hpo (fun n => (hrow n).trans (if_neg ?_)) rfl hsame
      exact fun h => hpo ((passedOver_shared hk).mpr h)
  case branchState st =>
    obtain ⟨id, b, hn, rfl⟩ := hp
    have hrow := fun n => rewrapRow_branchStateKey (f := f) (n := n) hn st
    by_cases hpo : PassedOver (branchStateKey id b)
    · exact hkept (fun n => (hrow n).trans (if_pos ((passedOver_branchStateKey hn).mp hpo))) (.inl hpo)
    · refine passes_of_read (rewrites_draft hf) hpo (fun n => (hrow n).trans (if_neg ?_)) rfl hsame
      exact fun h => hpo ((passedOver_branchStateKey hn).mpr h)
  all_goals exact hkept (fun n => rewrapRow_else rfl rfl rfl rfl) (.inr fun _ h => h.elim)

/-! ## All rows -/

/-- The rows of a store as the pass expects them. -/
def Regular (t : Store) : Prop := ∀ (k : String) (v : Stored), t[k]? = some v → Placed k v ∧ v.Bare

theorem run_rows (l : List (String × Stored)) (n : Nat) (b : Buffer) (hpass : ∀ e ∈ l, Passes f newest e.1 e.2)
    (hl : ∀ e ∈ l, b.store[e.1]? = some e.2) (hd : (l.map (·.1)).Nodup) :
    ∃ c, (l.foldlM (rewrapRow f) n).run b =
        (.ok (n + c), { b with store := l.foldl (fun t e => t.insert e.1 (after f newest e.1 e.2)) b.store }) ∧
      (0 < c ↔ ∃ e ∈ l, ¬ PassedOver e.1 ∧ ¬ e.2.Renewed newest) := by
  induction l generalizing n b with
  | nil => exact ⟨0, rfl, by simp⟩
  | cons e l ih =>
    rw [List.map_cons, List.nodup_cons] at hd
    obtain ⟨c, hrow, hc⟩ := hpass e List.mem_cons_self n b (hl e List.mem_cons_self)
    -- the rows that follow are at other keys
    have hrest : ∀ e' ∈ l, (b.store.insert e.1 (after f newest e.1 e.2))[e'.1]? = some e'.2 := by
      intro e' he'
      have hne : e.1 ≠ e'.1 := fun h => hd.1 (List.mem_map.mpr ⟨e', he', h.symm⟩)
      rw [KV.getElem?_insert_ne _ hne]
      exact hl e' (List.mem_cons_of_mem _ he')
    obtain ⟨c', hrun, hc'⟩ := ih (n + c) { b with store := b.store.insert e.1 (after f newest e.1 e.2) }
      (fun e' he' => hpass e' (List.mem_cons_of_mem _ he')) hrest hd.2
    refine ⟨c + c', ?_, ?_⟩
    · rw [List.foldlM_cons, Prog.run_bind, hrow, ← Nat.add_assoc]
      exact hrun
    · rw [Nat.add_pos_iff_pos_or_pos, hc, hc']
      simp

omit [SerdeJson] in
theorem rows_all (t : Store) : ({ store := t } : Buffer).rows (startsWith "") = t.toList := by
  have hall : ∀ k, startsWith "" k = true := fun k => startsWith_iff.mpr (List.nil_prefix)
  rw [KV.Buf.rows_eq]
  refine congrArg Std.ExtTreeMap.toList (Std.ExtTreeMap.ext_getElem? fun k => ?_)
  rw [KV.getElem?_filter, if_pos (hall k)]
  rfl

/-- A run of the renewal: every row becomes what it is to become, and the rows that change are counted. -/
theorem run_rewrapDeks (hf : Renews f newest) (ht : Regular t) :
    ∃ c, (rewrapDeks f).run { store := t } = (.ok c, { store := t.map (after f newest) }) ∧
      (0 < c ↔ ∃ k v, t[k]? = some v ∧ ¬ PassedOver k ∧ ¬ v.Renewed newest) := by
  have hrow : ∀ e ∈ t.toList, t[e.1]? = some e.2 := fun e he => Std.ExtTreeMap.mem_toList_iff_getElem?_eq_some.mp he
  obtain ⟨c, hrun, hc⟩ := run_rows t.toList 0 { store := t }
    (fun e he => passes_of_placed hf (ht _ _ (hrow e he)).1 (ht _ _ (hrow e he)).2) hrow (KV.nodup_toList t)
  refine ⟨c, ?_, hc.trans ?_⟩
  · have hrows : (getPrefixMerged "").run { store := t } = (.ok t.toList, { store := t }) := by
      change (Prog.ofExcept (.ok (KV.Buf.rows _ _)) : M _).run _ = _
      rw [rows_all]
      rfl
    rw [rewrapDeks, Prog.run_bind, hrows]
    change (t.toList.foldlM (rewrapRow f) 0).run { store := t } = _
    rw [hrun, KV.foldl_insert_toList, Nat.zero_add]
  · simp only [Prod.exists, Std.ExtTreeMap.mem_toList_iff_getElem?_eq_some]

theorem placed_after (hp : Placed k v) : Placed k (after f newest k v) := by
  unfold after
  split
  · exact hp
  · exact placed_mapValues.mpr (placed_mapValues.mpr hp)

theorem bare_after (h : v.Bare) : (after f newest k v).Bare := by
  unfold after
  split
  · exact h
  · exact bare_mapValues (bare_mapValues h)

theorem regular_map (ht : Regular t) : Regular (t.map (after f newest)) := by
  intro k v hv
  rw [Std.ExtTreeMap.getElem?_map, Option.map_eq_some_iff] at hv
  obtain ⟨v₀, hv₀, rfl⟩ := hv
  obtain ⟨hp, hb⟩ := ht k v₀ hv₀
  exact ⟨placed_after hp, bare_after hb⟩

theorem after_of_renewed (h : ¬ PassedOver k → v.Renewed newest) : after f newest k v = v :=
  if_pos (or_iff_not_imp_left.mpr h)

theorem renewed_after (hf : Renews f newest) (hk : ¬ PassedOver k) : (after f newest k v).Renewed newest := by
  unfold after
  split
  · rename_i h
    exact h.resolve_left hk
  · exact newest_rewrap hf

theorem run_rewrapDeks_again (hf : Renews f newest) (ht : Regular t) :
    (rewrapDeks f).run { store := t.map (after f newest) } = (.ok 0, { store := t.map (after f newest) }) := by
  have hdone : ∀ k v, (t.map (after f newest))[k]? = some v → ¬ PassedOver k → v.Renewed newest := by
    intro k v hv hk
    rw [Std.ExtTreeMap.getElem?_map, Option.map_eq_some_iff] at hv
    obtain ⟨v₀, -, rfl⟩ := hv
    exact renewed_after hf hk
  obtain ⟨c, hrun, hc⟩ := run_rewrapDeks hf (regular_map ht)
  have hzero : c = 0 := by
    by_contra h
    obtain ⟨k, v, hv, hk, hold⟩ := hc.mp (by omega)
    exact hold (hdone k v hv hk)
  have hsame : (t.map (after f newest)).map (after f newest) = t.map (after f newest) := by
    refine Std.ExtTreeMap.ext_getElem? fun k => ?_
    rw [Std.ExtTreeMap.getElem?_map]
    cases hv : (t.map (after f newest))[k]? with
    | none => rfl
    | some v => exact congrArg some (after_of_renewed (hdone k v hv))
  rw [hrun, hzero, hsame]

/-! ## Reachable stores -/


omit [SerdeJson] in
theorem bare_computeDiff (old new : SnapshotMap) : (Stored.diff (computeDiff old new)).Bare := by
  intro e he hkind
  simp only [computeDiff, List.mem_append, List.mem_flatMap, List.mem_filterMap] at he
  rcases he with ⟨_, _, x, _, h⟩ | ⟨_, _, x, _, h⟩
  · split at h
    · obtain rfl := Option.some.inj h
      cases hkind
    · cases h
  · split at h
    · obtain rfl := Option.some.inj h
      rfl
    · cases h

def BareDiffs (br : Branch) : Prop := ∀ n v, br (.diff n) = some v → v.Bare

theorem bare_move {cmd : Command} {br br' : Branch} {events : List PublishEvent} {ws : List VersionWrite}
    (hb : BareDiffs br) (hm : Move t id b cmd br events ws br') : BareDiffs br' := by
  cases hm with
  | create => exact hb
  | edit => exact hb
  | @release st st' old new gray event record =>
    intro n v hv
    change (br.write st'.activeVersion old new record) (.diff n) = some v at hv
    unfold Branch.write at hv
    split at hv
    · simp only [Branch.set, Function.update_apply, reduceCtorEq, if_false] at hv
      exact hb n v hv
    · simp only [Branch.set, Function.update_apply, reduceCtorEq, if_false] at hv
      split at hv
      · obtain rfl := Option.some.inj hv
        exact bare_computeDiff old new
      · exact hb n v hv

theorem regular_of_reach {allowed : Store → Command → Int → Prop} (h : Reach allowed t) : Regular t := by
  have hbare := reach_invariant (I := fun _ _ br => BareDiffs br) (fun _ _ _ _ h => by cases h)
    (fun _ _ _ _ hb hm => bare_move hb hm) h
  intro k v hv
  have hp := wellPlaced_of_reach h k v hv
  refine ⟨hp, ?_⟩
  cases v
  case diff d =>
    obtain ⟨id, b, n, hn, -, rfl⟩ := hp
    exact hbare id b hn n (.diff d) hv
  all_goals trivial

/-- A run goes through and leaves every secret of the newest generation and all else as it was; a second one
changes nothing. -/
def RenewsAll (f : Renewal) (newest : Ciphertext → Prop) (t : Store) : Prop :=
  ∃ n t', (rewrapDeks f).run { store := t } = (.ok n, { store := t' }) ∧
    (∀ (k : String) (v : Stored), t'[k]? = some v → v.Renewed newest) ∧
    (∀ k : String, t'[k]? = (t[k]?).map (Stored.rewrap (renewed f))) ∧
    (rewrapDeks f).run { store := t' } = (.ok 0, { store := t' })

theorem RenewsAll.rows (ht : Regular t) (hf : Renews f newest) (h : RenewsAll f newest t) (hv : t[k]? = some v) :
    (after f newest k v).Renewed newest ∧ after f newest k v = v.rewrap (renewed f) := by
  obtain ⟨n, t', hrun', hnew, hsame, -⟩ := h
  obtain ⟨c, hrun, -⟩ := run_rewrapDeks hf ht
  rw [hrun] at hrun'
  obtain rfl : t.map (after f newest) = t' := congrArg (fun r => KV.Buf.store r.2) hrun'
  have hrow : (t.map (after f newest))[k]? = some (after f newest k v) := by rw [Std.ExtTreeMap.getElem?_map, hv]; rfl
  refine ⟨hnew k _ hrow, ?_⟩
  have := hsame k
  rw [hrow, hv] at this
  exact Option.some.inj this

/-- The renewal does what it is for exactly in the stores whose rows with an old secret are not passed over, and
print no double that is read as another one. -/
theorem renews_all_iff (h : Reachable t) (hf : Renews f newest) :
    RenewsAll f newest t ↔ ∀ (k : String) (v : Stored), t[k]? = some v → ¬ v.Renewed newest →
      ¬ PassedOver k ∧ ∀ x, v.Has x → Steady x := by
  have ht := regular_of_reach h
  constructor
  · intro hall k v hv hold
    obtain ⟨hnew, hsame⟩ := hall.rows ht hf hv
    have hk : ¬ PassedOver k := fun hk => hold (by rwa [after, if_pos (.inl hk)] at hnew)
    rw [after, if_neg (not_or.mpr ⟨hk, hold⟩)] at hsame
    exact ⟨hk, rewrap_reread_eq_iff.mp hsame⟩
  · intro hsteady
    obtain ⟨c, hrun, -⟩ := run_rewrapDeks hf ht
    -- then every row is renewed, or was so before
    have hafter : ∀ (k : String) (v : Stored), t[k]? = some v → after f newest k v = v.rewrap (renewed f) := by
      intro k v hv
      by_cases hnew : v.Renewed newest
      · rw [after, if_pos (.inr hnew), rewrap_of_renewed hf hnew]
      · obtain ⟨hk, hx⟩ := hsteady k v hv hnew
        rw [after, if_neg (not_or.mpr ⟨hk, hnew⟩), rewrap_reread_eq_iff.mpr hx]
    refine ⟨c, t.map (after f newest), hrun, ?_, ?_, run_rewrapDeks_again hf ht⟩
    · intro k v hv
      rw [Std.ExtTreeMap.getElem?_map, Option.map_eq_some_iff] at hv
      obtain ⟨v₀, hv₀, rfl⟩ := hv
      rw [hafter k v₀ hv₀]
      exact newest_rewrap hf
    · intro k
      rw [Std.ExtTreeMap.getElem?_map]
      cases hv : t[k]? with
      | none => rfl
      | some v => exact congrArg some (hafter k v hv)

end

section
attribute [local instance] sampleJson

def firstSecret : Value :=
  .secret { enc := "aesgcm", v := 1, dekV := 1, nonce := "n", ct := "c", edek := "e", edekNonce := "m" }

/-- Two shared drafts with secrets of the first generation, one of them named like the rows of versions. -/
def secretLog : List (Command × Int) := [
  (.sharedDraftUpdate { key := "s", ty := .secret, secret := true, value := firstSecret, version := 0 } "", 1),
  (.sharedDraftUpdate { key := "snap", ty := .secret, secret := true, value := firstSecret, version := 0 } "", 2)]

def renewToSecond : Renewal := renewOld 2 fun ct => .ok { ct with dekV := 2 }

theorem renewToSecond_renews : Renews renewToSecond fun ct => 2 ≤ ct.dekV := by
  intro ct
  constructor
  · intro hnew
    exact if_pos hnew
  · intro hold
    exact ⟨{ ct with dekV := 2 }, if_neg hold, Nat.le_refl 2⟩

theorem renews_all_iff_sample : RenewsAll renewToSecond (fun ct => 2 ≤ ct.dekV) (runLog (secretLog.take 1)) := by
  refine (renews_all_iff (reachable_runLog _) renewToSecond_renews).mpr fun k v hv _ => ?_
  have hrows : (runLog (secretLog.take 1)).toList = [(sharedDraftKey "s", .shared
      { key := "s", ty := .secret, secret := true, value := firstSecret, version := 0 })] := by decide +kernel
  have hmem := Std.ExtTreeMap.mem_toList_iff_getElem?_eq_some.mpr hv
  rw [hrows, List.mem_singleton] at hmem
  obtain ⟨rfl, rfl⟩ := Prod.mk.inj hmem
  refine ⟨fun hk => ?_, ?_⟩
  · have := (passedOver_shared (.inr rfl)).mp hk
    simp at this
  · rintro x rfl
    rfl

/-- The secret of a shared item named `snap` stays what it is. -/
theorem secret_left_behind : ¬ ∀ t, Reachable t → ∀ f newest, Renews f newest → RenewsAll f newest t := by
  intro h
  have hreach := reachable_runLog secretLog
  have hvalue : (entity SharedItem (runLog secretLog) (sharedDraftKey "snap")).map (·.value) = some firstSecret := by
    decide +kernel
  obtain ⟨item, hitem, hsecret⟩ := Option.map_eq_some_iff.mp hvalue
  obtain ⟨x, hrow, rfl⟩ := row_of_entity hitem
  have hx : x.value = firstSecret := rereadValue_eq_secret.mp hsecret
  obtain ⟨hnew, -⟩ := (h _ hreach _ _ renewToSecond_renews).rows (regular_of_reach hreach) renewToSecond_renews hrow
  rw [after, if_pos (.inl (.inl ⟨"snap", by simp, .inr rfl⟩))] at hnew
  exact absurd (hnew _ hx) (by decide)

end

end Defing
