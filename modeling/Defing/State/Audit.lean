import Defing.Core.Audit
import Defing.State.Chain

/-!
# The audit log over runs

Entries are numbered one after the other whatever is pruned, as the counter
stands beside them and is never pruned.
-/

namespace Defing

open KV (Prog)

section
variable {t : Store} {appended kept : List AuditEntry}

/-! ## Keys -/

theorem toList_pad20 (n : Nat) :
    (pad20 n).toList = List.replicate (20 - (toString n).length) '0' ++ Nat.toDigits 10 n := by
  rw [pad20, String.toList_append, String.toList_ofList]
  congr 1
  exact Nat.toList_repr

theorem parseSeq_of_digits {s : String} (hne : s.toList ≠ []) (h : ∀ c ∈ s.toList, c.isDigit) :
    parseSeq s = some (Nat.ofDigitChars 10 s.toList 0) := by
  unfold parseSeq
  split
  · rename_i rest he
    have hplus := h '+' (by simp [he])
    exact absurd hplus (by decide)
  · have hall : s.toList.all Char.isDigit := List.all_eq_true.mpr h
    simp [hne, hall]

theorem parseSeq_pad20 (n : Nat) : parseSeq (pad20 n) = some n := by
  have hlist := toList_pad20 n
  rw [parseSeq_of_digits, hlist, Nat.ofDigitChars_append, Nat.ofDigitChars_replicate_zero, Nat.mul_zero,
    Nat.ofDigitChars_toDigits (by decide) (by decide)]
  · rw [hlist]
    exact List.append_ne_nil_of_right_ne_nil _ Nat.toDigits_ne_nil
  · intro c hc
    rw [hlist] at hc
    rcases List.mem_append.mp hc with hc | hc
    · rw [(List.mem_replicate.mp hc).2]
      rfl
    · exact Nat.isDigit_of_mem_toDigits (by decide) (by decide) hc

theorem auditSeqOf_auditKey (n : Nat) (v : Stored) : auditSeqOf (auditKey n, v) = some n := by
  rw [auditSeqOf, auditKey, stripPrefix_append, Option.bind_some, parseSeq_pad20]

theorem auditSeqOf_kAuditSeq (v : Stored) : auditSeqOf (kAuditSeq, v) = none := by
  have hkey : kAuditSeq = kAudit ++ "seq" := by simp [kAuditSeq, kAudit]
  have hseq : parseSeq "seq" = none := by simp [parseSeq]
  rw [auditSeqOf, hkey, stripPrefix_append, Option.bind_some, hseq]

theorem auditKey_inj {m n : Nat} (h : auditKey m = auditKey n) : m = n := by
  have hm := auditSeqOf_auditKey m (.number 0)
  rw [h, auditSeqOf_auditKey] at hm
  exact (Option.some.inj hm).symm

theorem auditKey_ne_kAuditSeq (n : Nat) : auditKey n ≠ kAuditSeq := by
  intro h
  have hn := auditSeqOf_auditKey n (.number 0)
  rw [h, auditSeqOf_kAuditSeq] at hn
  cases hn

theorem startsWith_auditKey (n : Nat) : startsWith kAudit (auditKey n) := startsWith_append kAudit (pad20 n)

theorem startsWith_kAuditSeq : startsWith kAudit kAuditSeq := by decide +kernel

variable [SerdeJson]

/-! ## Stored entries -/

def storedAudit (t : Store) : List AuditEntry :=
  (parsed (rowsUnder kAudit t) : List AuditEntry).insertionSort fun a b => a.seq ≤ b.seq

/-- What was appended is numbered from 1 on, the counter is at the last number, and the rows of the log are those of
the entries that are kept, the last ones appended. -/
structure AuditKept (t : Store) (appended kept : List AuditEntry) : Prop where
  seqs : appended.map (·.seq) = List.range' 1 appended.length
  suffix : kept <:+ appended
  counter : t[kAuditSeq]? = if appended = [] then none else some (.number appended.length)
  row : ∀ k v, startsWith kAudit k → t[k]? = some v → k = kAuditSeq ∨ ∃ e ∈ kept, k = auditKey e.seq ∧ v = .audit e
  stored : ∀ e ∈ kept, t[auditKey e.seq]? = some (.audit e)

omit [SerdeJson] in
theorem AuditKept.increasing (h : AuditKept t appended kept) : appended.Pairwise fun a b => a.seq < b.seq := by
  have hp : (appended.map (·.seq)).Pairwise (· < ·) := h.seqs ▸ List.pairwise_lt_range'
  exact List.pairwise_map.mp hp

omit [SerdeJson] in
theorem AuditKept.kept_increasing (h : AuditKept t appended kept) : kept.Pairwise fun a b => a.seq < b.seq :=
  h.increasing.sublist h.suffix.sublist

omit [SerdeJson] in
theorem AuditKept.seq_lt (h : AuditKept t appended kept) {e : AuditEntry} (he : e ∈ appended) :
    e.seq < appended.length + 1 := by
  have hmem : e.seq ∈ appended.map (·.seq) := List.mem_map_of_mem he
  rw [h.seqs, List.mem_range'_1] at hmem
  omega

omit [SerdeJson] in
theorem AuditKept.unique (h : AuditKept t appended kept) {a b : AuditEntry} (ha : a ∈ kept) (hb : b ∈ kept)
    (he : a.seq = b.seq) : a = b := by
  have hrow := h.stored a ha
  rw [he, h.stored b hb] at hrow
  cases hrow
  rfl

omit [SerdeJson] in
theorem AuditKept.mem_rows (h : AuditKept t appended kept) {row : String × Stored} (hrow : row ∈ rowsUnder kAudit t) :
    row.1 = kAuditSeq ∧ row.2 = .number appended.length ∨ ∃ e ∈ kept, row = (auditKey e.seq, .audit e) := by
  obtain ⟨k, v⟩ := row
  obtain ⟨hk, hv⟩ := mem_rowsUnder.mp hrow
  rcases h.row k v hk hv with rfl | ⟨e, he, rfl, rfl⟩
  · refine .inl ⟨rfl, ?_⟩
    rw [h.counter] at hv
    split at hv
    · cases hv
    · exact (Option.some.inj hv).symm
  · exact .inr ⟨e, he, rfl⟩

omit [SerdeJson] in
theorem AuditKept.row_mem (h : AuditKept t appended kept) {e : AuditEntry} (he : e ∈ kept) :
    (auditKey e.seq, .audit e) ∈ rowsUnder kAudit t :=
  mem_rowsUnder.mpr ⟨startsWith_auditKey _, h.stored e he⟩

theorem mem_parsed_audit (h : AuditKept t appended kept) {e : AuditEntry} :
    e ∈ (parsed (rowsUnder kAudit t) : List AuditEntry) ↔ e ∈ kept := by
  rw [parsed, List.mem_filterMap]
  constructor
  · intro ⟨row, hrow, hdec⟩
    rcases h.mem_rows hrow with ⟨-, hv⟩ | ⟨e', he', rfl⟩
    · rw [hv] at hdec
      cases hdec
    · cases hdec
      exact he'
  · intro he
    exact ⟨_, h.row_mem he, rfl⟩

omit [SerdeJson] in
theorem nodup_rowsUnder (stem : String) (t : Store) : (rowsUnder stem t).Pairwise fun a b => a.1 ≠ b.1 := by
  refine Std.ExtTreeMap.distinct_keys_toList.imp ?_
  intro a b hab e
  rw [e] at hab
  exact hab Std.compare_self

theorem nodup_parsed_audit (h : AuditKept t appended kept) : (parsed (rowsUnder kAudit t) : List AuditEntry).Nodup := by
  refine List.pairwise_filterMap.mpr ((nodup_rowsUnder kAudit t).imp_of_mem ?_)
  intro a b ha hb hab e he e' he' heq
  subst heq
  rcases h.mem_rows ha with ⟨-, hv⟩ | ⟨x, -, rfl⟩
  · rw [hv] at he
    cases he
  · rcases h.mem_rows hb with ⟨-, hv⟩ | ⟨y, -, rfl⟩
    · rw [hv] at he'
      cases he'
    · cases he
      cases he'
      exact hab rfl

theorem AuditKept.perm (h : AuditKept t appended kept) : (parsed (rowsUnder kAudit t) : List AuditEntry).Perm kept := by
  have hnodup : kept.Nodup := h.kept_increasing.imp fun hlt e => absurd hlt (by rw [e]; exact Nat.lt_irrefl _)
  exact (List.perm_ext_iff_of_nodup (nodup_parsed_audit h) hnodup).mpr fun _ => mem_parsed_audit h

omit [SerdeJson] in
theorem AuditKept.sort_eq (h : AuditKept t appended kept) {R : AuditEntry → AuditEntry → Prop} [DecidableRel R]
    [Std.Total R] [IsTrans AuditEntry R] {l l' : List AuditEntry} (hR : ∀ a b, R a b → R b a → a.seq = b.seq)
    (hperm : l.Perm l') (hl' : l'.Pairwise R) (hmem : ∀ e ∈ l', e ∈ kept) : l.insertionSort R = l' := by
  have hp := (List.perm_insertionSort R l).trans hperm
  refine List.Perm.eq_of_pairwise ?_ (List.pairwise_insertionSort R l) hl' hp
  intro a b ha hb hab hba
  exact h.unique (hmem a (hp.subset ha)) (hmem b hb) (hR a b hab hba)

instance : Std.Total fun a b : AuditEntry => a.seq ≤ b.seq := ⟨fun a b => Nat.le_total a.seq b.seq⟩
instance : IsTrans AuditEntry fun a b => a.seq ≤ b.seq := ⟨fun _ _ _ => Nat.le_trans⟩
instance : Std.Total fun a b : AuditEntry => b.seq ≤ a.seq := ⟨fun a b => Nat.le_total b.seq a.seq⟩
instance : IsTrans AuditEntry fun a b => b.seq ≤ a.seq := ⟨fun _ _ _ h h' => Nat.le_trans h' h⟩

theorem AuditKept.storedAudit_eq (h : AuditKept t appended kept) : storedAudit t = kept :=
  h.sort_eq (fun _ _ => Nat.le_antisymm) h.perm (h.kept_increasing.imp Nat.le_of_lt) fun _ he => he

/-! ## Readers -/

theorem getAudit_eval (h : AuditKept t appended kept) (action project : Option String) (since : Option Int) (limit : Nat) :
    (getAudit action project since limit).eval t =
      .ok ((kept.reverse.filter (auditMatches action project since)).take limit) := by
  have hrows : (parsed ((rowsUnder kAudit t).filter fun row => (auditSeqOf row).isSome) : List AuditEntry) =
      parsed (rowsUnder kAudit t) := by
    rw [parsed, parsed, List.filterMap_filter]
    refine List.filterMap_congr ?_
    intro row hrow
    rcases h.mem_rows hrow with ⟨hk, hv⟩ | ⟨e, -, rfl⟩
    · obtain ⟨k, v⟩ := row
      obtain rfl := hk
      rw [auditSeqOf_kAuditSeq, hv]
      rfl
    · rw [auditSeqOf_auditKey]
      rfl
  have hsort : ((parsed (rowsUnder kAudit t) : List AuditEntry).filter (auditMatches action project since)).insertionSort
      (fun a b => b.seq ≤ a.seq) = kept.reverse.filter (auditMatches action project since) := by
    refine h.sort_eq (fun _ _ hab hba => Nat.le_antisymm hba hab) ?_ ?_ ?_
    · exact (h.perm.trans (List.reverse_perm kept).symm).filter _
    · refine List.Pairwise.filter _ (List.pairwise_reverse.mpr ?_)
      exact h.kept_increasing.imp Nat.le_of_lt
    · intro e he
      exact List.mem_reverse.mp (List.mem_of_mem_filter he)
  show Except.ok _ = _
  rw [← hsort, ← hrows]
  congr 1
  dsimp only
  split
  · rfl
  · rename_i hlen
    exact (List.take_of_length_le (not_lt.mp hlen)).symm

/-! ## Pruning -/

omit [SerdeJson] in
theorem AuditKept.seqs_eq (h : AuditKept t appended kept) :
    ((rowsUnder kAudit t).filterMap auditSeqOf).insertionSort (· ≤ ·) = kept.map (·.seq) := by
  have hsorted : (kept.map (·.seq)).Pairwise (· < ·) := List.pairwise_map.mpr h.kept_increasing
  have hnodup : ((rowsUnder kAudit t).filterMap auditSeqOf).Nodup := by
    refine List.pairwise_filterMap.mpr ((nodup_rowsUnder kAudit t).imp_of_mem ?_)
    intro a b ha hb hab n hn n' hn' heq
    subst heq
    rcases h.mem_rows ha with ⟨hk, -⟩ | ⟨x, -, rfl⟩
    · obtain ⟨k, v⟩ := a
      obtain rfl := hk
      rw [auditSeqOf_kAuditSeq] at hn
      cases hn
    · rcases h.mem_rows hb with ⟨hk, -⟩ | ⟨y, -, rfl⟩
      · obtain ⟨k, v⟩ := b
        obtain rfl := hk
        rw [auditSeqOf_kAuditSeq] at hn'
        cases hn'
      · rw [auditSeqOf_auditKey] at hn hn'
        exact hab (by rw [Option.some.inj hn, Option.some.inj hn'])
  have hperm : ((rowsUnder kAudit t).filterMap auditSeqOf).Perm (kept.map (·.seq)) := by
    refine (List.perm_ext_iff_of_nodup hnodup (hsorted.imp Nat.ne_of_lt)).mpr ?_
    intro n
    rw [List.mem_filterMap, List.mem_map]
    constructor
    · intro ⟨row, hrow, hn⟩
      rcases h.mem_rows hrow with ⟨hk, -⟩ | ⟨e, he, rfl⟩
      · obtain ⟨k, v⟩ := row
        obtain rfl := hk
        rw [auditSeqOf_kAuditSeq] at hn
        cases hn
      · rw [auditSeqOf_auditKey] at hn
        exact ⟨e, he, Option.some.inj hn⟩
    · intro ⟨e, he, hn⟩
      exact ⟨_, h.row_mem he, hn ▸ auditSeqOf_auditKey _ _⟩
  have hp := (List.perm_insertionSort (· ≤ ·) _).trans hperm
  refine List.Perm.eq_of_pairwise ?_ (List.pairwise_insertionSort _ _) (hsorted.imp Nat.le_of_lt) hp
  exact fun _ _ _ _ => Nat.le_antisymm

omit [SerdeJson] in
theorem pruneAuditStore_eq (h : AuditKept t appended kept) (keep : Nat) : pruneAuditStore keep t =
    ((kept.take (kept.length - keep)).map fun e => auditKey e.seq).foldl (fun t k => t.erase k) t := by
  have hrows : (getPrefixMerged kAudit).run { store := t } = (.ok (rowsUnder kAudit t), { store := t }) :=
    (getPrefixMerged_readOnly kAudit).run_eq _
  unfold pruneAuditStore pruneAudit
  rw [Prog.run_bind_of_ok hrows, h.seqs_eq]
  dsimp only
  rw [List.length_map]
  by_cases hle : kept.length ≤ keep
  · rw [if_pos hle, Nat.sub_eq_zero_of_le hle]
    rfl
  · have hforM : ((kept.map (·.seq)).take (kept.length - keep)).forM (fun seq => storeDelete (auditKey seq)) =
        ((kept.take (kept.length - keep)).map fun e => auditKey e.seq).forM storeDelete := by
      simp only [List.forM_eq_forM, ← List.map_take, List.forM_map]
    rw [if_neg hle, hforM, Prog.run_bind_of_ok (run_deletes _ _)]
    rfl

omit [SerdeJson] in
theorem AuditKept.prune (h : AuditKept t appended kept) (keep : Nat) :
    AuditKept (pruneAuditStore keep t) appended (kept.drop (kept.length - keep)) := by
  have hget := fun k => getElem?_deletes t ((kept.take (kept.length - keep)).map fun e => auditKey e.seq) k
  rw [← pruneAuditStore_eq h] at hget
  have hcross : ∀ a ∈ kept.take (kept.length - keep), ∀ b ∈ kept.drop (kept.length - keep), a.seq < b.seq := by
    have hkept := h.kept_increasing
    rw [← List.take_append_drop (kept.length - keep) kept] at hkept
    exact (List.pairwise_append.mp hkept).2.2
  refine ⟨h.seqs, (List.drop_suffix _ _).trans h.suffix, ?_, ?_, ?_⟩
  · rw [hget, if_neg]
    · exact h.counter
    · intro hmem
      obtain ⟨e, -, he⟩ := List.mem_map.mp hmem
      exact auditKey_ne_kAuditSeq _ he
  · intro k v hk hv
    rw [hget] at hv
    split at hv
    · cases hv
    · rename_i hnot
      rcases h.row k v hk hv with rfl | ⟨e, he, rfl, rfl⟩
      · exact .inl rfl
      · refine .inr ⟨e, ?_, rfl, rfl⟩
        rw [← List.take_append_drop (kept.length - keep) kept] at he
        exact (List.mem_append.mp he).resolve_left fun ht => hnot (List.mem_map_of_mem ht)
  · intro e he
    rw [hget, if_neg]
    · exact h.stored e (List.mem_of_mem_drop he)
    · intro hmem
      obtain ⟨a, ha, hkey⟩ := List.mem_map.mp hmem
      exact absurd (auditKey_inj hkey) (Nat.ne_of_lt (hcross a ha e he))

/-! ## Appending -/

def auditAppended (t : Store) (entry : AuditEntry) : AuditEntry :=
  { entry with seq := (entity Nat t kAuditSeq).getD 0 + 1 }

theorem AuditKept.seq_appended (h : AuditKept t appended kept) (entry : AuditEntry) :
    (auditAppended t entry).seq = appended.length + 1 := by
  show (entity Nat t kAuditSeq).getD 0 + 1 = _
  rw [entity, h.counter]
  by_cases hnil : appended = []
  · rw [if_pos hnil, hnil]
    rfl
  · rw [if_neg hnil]
    rfl

section

theorem apply_auditAppend (h : AuditKept t appended kept) (entry : AuditEntry) (now : Int) :
    apply (.auditAppend entry) now t =
      { result := .ok [],
        store := (t.insert (auditKey (appended.length + 1)) (.audit (auditAppended t entry))).insert kAuditSeq
          (.number (appended.length + 1)),
        writes := [] } := by
  have hload : (loadMerged kAuditSeq : M (Option Nat)).exec ⟨t, []⟩ = (.ok (entity Nat t kAuditSeq), ⟨t, []⟩) := by
    refine loadMerged_ok.mpr ⟨?_, rfl⟩
    rw [entity, h.counter]
    split <;> rfl
  refine apply_eq (s := (((⟨t, []⟩ : State).insert _ _).insert _ _)) ?_
  show (applyAuditAppend entry).exec ⟨t, []⟩ = _
  rw [applyAuditAppend, Prog.exec_bind_of_ok hload]
  dsimp only
  rw [Prog.exec_bind_of_ok (savePending_exec _ _), Prog.exec_bind_of_ok (savePending_exec _ _)]
  rw [← h.seq_appended entry]
  rfl

theorem AuditKept.append (h : AuditKept t appended kept) (entry : AuditEntry) (now : Int) :
    AuditKept (apply (.auditAppend entry) now t).store (appended ++ [auditAppended t entry])
      (kept ++ [auditAppended t entry]) := by
  rw [apply_auditAppend h]
  have hseq := h.seq_appended entry
  refine ⟨?_, ?_, ?_, ?_, ?_⟩
  · rw [List.map_append, h.seqs, List.length_append, List.map_singleton, hseq, List.length_singleton,
      List.range'_concat]
    simp [Nat.add_comm]
  · obtain ⟨old, hold⟩ := h.suffix
    exact ⟨old, by rw [← hold, List.append_assoc]⟩
  · rw [KV.getElem?_insert, if_pos rfl, if_neg (by simp), List.length_append]
    rfl
  · intro k v hk hv
    rw [KV.getElem?_insert] at hv
    split at hv
    · rename_i hkey
      exact .inl hkey.symm
    · rw [KV.getElem?_insert] at hv
      split at hv
      · rename_i hkey
        refine .inr ⟨auditAppended t entry, by simp, ?_, (Option.some.inj hv).symm⟩
        rw [hseq, hkey]
      · rcases h.row k v hk hv with rfl | ⟨e, he, rfl, rfl⟩
        · exact .inl rfl
        · exact .inr ⟨e, List.mem_append_left _ he, rfl, rfl⟩
  · intro e he
    rw [KV.getElem?_insert, if_neg fun hkey => auditKey_ne_kAuditSeq _ hkey.symm, KV.getElem?_insert]
    rcases List.mem_append.mp he with he | he
    · have hlt := h.seq_lt (h.suffix.subset he)
      rw [if_neg fun hkey => absurd (auditKey_inj hkey).symm (Nat.ne_of_lt hlt)]
      exact h.stored e he
    · rw [List.mem_singleton.mp he, hseq, if_pos rfl]

end

/-! ## Dumps -/

omit [SerdeJson] in
theorem getElem?_puts (t : Store) {rows : List (String × Stored)} (h : rows.Pairwise fun a b => a.1 ≠ b.1) {k : String}
    {v : Stored} : (rows.foldl (fun t r => t.insert r.1 r.2) t)[k]? = some v ↔
      (k, v) ∈ rows ∨ (∀ r ∈ rows, r.1 ≠ k) ∧ t[k]? = some v := by
  induction rows generalizing t with
  | nil => simp
  | cons r rows ih =>
    obtain ⟨hr, hrows⟩ := List.pairwise_cons.mp h
    obtain ⟨a, w⟩ := r
    rw [List.foldl_cons, ih _ hrows, KV.getElem?_insert, List.mem_cons, List.forall_mem_cons]
    by_cases hk : a = k
    · subst hk
      have hnot : ∀ v, (a, v) ∉ rows := fun v hv => hr _ hv rfl
      have hall : ∀ r ∈ rows, r.1 ≠ a := fun r hr' e => hr r hr' e.symm
      rw [if_pos rfl]
      constructor
      · rintro (hv | ⟨-, hv⟩)
        · exact absurd hv (hnot v)
        · exact .inl (.inl (congrArg (Prod.mk a) (Option.some.inj hv).symm))
      · rintro ((hv | hv) | ⟨⟨hne, -⟩, -⟩)
        · exact .inr ⟨hall, congrArg some (Prod.mk.inj hv).2.symm⟩
        · exact absurd hv (hnot v)
        · exact absurd rfl hne
    · simp [hk, Ne.symm hk]

omit [SerdeJson] in
theorem restore_dump (t t' : Store) : restoreStore (dumpStore t) t' = t := by
  unfold restoreStore dumpStore KV.writeBatch
  have hclear : (t'.toList.map (·.1)).foldl (fun t k => t.erase k) t' = ∅ := by
    refine Std.ExtTreeMap.ext_getElem? fun k => ?_
    rw [getElem?_deletes, Std.ExtTreeMap.getElem?_empty]
    split
    · rfl
    · rename_i hk
      rw [Std.ExtTreeMap.map_fst_toList_eq_keys, Std.ExtTreeMap.mem_keys] at hk
      exact Std.ExtTreeMap.getElem?_eq_none hk
  have hdistinct : t.toList.Pairwise fun a b => a.1 ≠ b.1 := by
    refine Std.ExtTreeMap.distinct_keys_toList.imp ?_
    intro a b hab e
    rw [e] at hab
    exact hab Std.compare_self
  rw [hclear]
  refine Std.ExtTreeMap.ext_getElem? fun k => Option.ext fun v => ?_
  show (t.toList.foldl (fun (t : Store) r => t.insert r.1 r.2) ∅)[k]? = some v ↔ t[k]? = some v
  rw [getElem?_puts ∅ hdistinct, Std.ExtTreeMap.getElem?_empty, Std.ExtTreeMap.mem_toList_iff_getElem?_eq_some]
  simp

/-! ## Runs -/

/-- A node with the entries that the history of its store holds, all that were ever appended on it, and the dumps taken
of it, each with the entries of its history. -/
structure AuditNode where
  store : Store
  appended : List AuditEntry
  ever : List AuditEntry
  dumps : List (List (String × Stored) × List AuditEntry)

def AuditNode.start (t : Store) : AuditNode where
  store := t
  appended := []
  ever := []
  dumps := []

section

/-- A restore takes back what was appended since the dump. -/
inductive AuditStep : AuditNode → AuditNode → Prop
  | append {n : AuditNode} (entry : AuditEntry) (now : Int) :
      AuditStep n { n with
        store := (apply (.auditAppend entry) now n.store).store
        appended := n.appended ++ [auditAppended n.store entry]
        ever := n.ever ++ [auditAppended n.store entry] }
  | prune {n : AuditNode} (keep : Nat) : AuditStep n { n with store := pruneAuditStore keep n.store }
  | dump {n : AuditNode} : AuditStep n { n with dumps := (dumpStore n.store, n.appended) :: n.dumps }
  | restore {n : AuditNode} {d : List (String × Stored) × List AuditEntry} (hd : d ∈ n.dumps) :
      AuditStep n { n with store := restoreStore d.1 n.store, appended := d.2 }

/-- The history of a store is what was ever appended, if it is as long. -/
structure AuditNode.Kept (n : AuditNode) : Prop where
  log : ∃ kept, AuditKept n.store n.appended kept
  dumped : ∀ d ∈ n.dumps, ∃ t kept, d.1 = dumpStore t ∧ AuditKept t d.2 kept
  whole : n.appended.length ≤ n.ever.length ∧ (n.appended.length = n.ever.length → n.appended = n.ever)
  wholeDumps : ∀ d ∈ n.dumps, d.2.length ≤ n.ever.length ∧ (d.2.length = n.ever.length → d.2 = n.ever)

omit [SerdeJson] in
theorem AuditNode.kept_start (h : ∀ k, startsWith kAudit k → t[k]? = none) : (AuditNode.start t).Kept where
  log := by
    refine ⟨[], rfl, List.suffix_rfl, h _ startsWith_kAuditSeq, ?_, by simp⟩
    intro k v hk hv
    cases (h k hk).symm.trans hv
  dumped := by simp [start]
  whole := ⟨Nat.le_refl _, fun _ => rfl⟩
  wholeDumps := by simp [start]

theorem AuditStep.keeps {n n' : AuditNode} (hstep : AuditStep n n') (h : n.Kept) : n'.Kept := by
  obtain ⟨kept, hlog⟩ := h.log
  cases hstep with
  | append entry now =>
    refine ⟨⟨_, hlog.append entry now⟩, h.dumped, ?_, ?_⟩
    · simp only [List.length_append, List.length_singleton]
      refine ⟨Nat.succ_le_succ h.whole.1, ?_⟩
      intro he
      rw [h.whole.2 (Nat.succ.inj he)]
    · intro d hd
      have hle := (h.wholeDumps d hd).1
      simp only [List.length_append, List.length_singleton]
      exact ⟨Nat.le_succ_of_le hle, fun he => absurd (he ▸ hle) (Nat.not_succ_le_self _)⟩
  | prune keep => exact ⟨⟨_, hlog.prune keep⟩, h.dumped, h.whole, h.wholeDumps⟩
  | dump =>
    refine ⟨⟨kept, hlog⟩, ?_, h.whole, ?_⟩
    · exact List.forall_mem_cons.mpr ⟨⟨_, kept, rfl, hlog⟩, h.dumped⟩
    · exact List.forall_mem_cons.mpr ⟨h.whole, h.wholeDumps⟩
  | @restore d hd =>
    obtain ⟨t, kept', hdump, hkept'⟩ := h.dumped d hd
    refine ⟨⟨kept', ?_⟩, h.dumped, h.wholeDumps d hd, h.wholeDumps⟩
    show AuditKept (restoreStore d.1 n.store) d.2 kept'
    rw [hdump, restore_dump]
    exact hkept'

theorem AuditNode.kept_of_run {n n' : AuditNode} (hrun : Relation.ReflTransGen AuditStep n n') (h : n.Kept) : n'.Kept := by
  induction hrun with
  | refl => exact h
  | tail _ hstep ih => exact hstep.keeps ih

/-- In every run of appends, prunings, dumps and restores the entries in the history of the store have growing numbers
in the order they were appended; no restore of an older dump apart these are all that were ever appended. Pruning leaves
the entries with the greatest numbers, and a query returns those that match, newest first. -/
theorem audit_sequence {n : AuditNode} (h0 : ∀ k, startsWith kAudit k → t[k]? = none)
    (hrun : Relation.ReflTransGen AuditStep (AuditNode.start t) n) :
    n.appended.Pairwise (fun a b => a.seq < b.seq) ∧
    (n.appended.length = n.ever.length → n.ever.Pairwise fun a b => a.seq < b.seq) ∧
    (∀ entry now, (apply (.auditAppend entry) now n.store).result = .ok [] ∧
      storedAudit (apply (.auditAppend entry) now n.store).store =
        storedAudit n.store ++ [auditAppended n.store entry]) ∧
    storedAudit n.store <:+ n.appended ∧
    (∀ keep, storedAudit (pruneAuditStore keep n.store) =
      (storedAudit n.store).drop ((storedAudit n.store).length - keep)) ∧
    ∀ action project since limit, (getAudit action project since limit).eval n.store =
      .ok (((storedAudit n.store).reverse.filter (auditMatches action project since)).take limit) := by
  have hk := AuditNode.kept_of_run hrun (AuditNode.kept_start h0)
  obtain ⟨kept, hlog⟩ := hk.log
  rw [hlog.storedAudit_eq]
  refine ⟨hlog.increasing, ?_, ?_, hlog.suffix, fun keep => (hlog.prune keep).storedAudit_eq, getAudit_eval hlog⟩
  · intro he
    rw [← hk.whole.2 he]
    exact hlog.increasing
  · intro entry now
    exact ⟨by rw [apply_auditAppend hlog], (hlog.append entry now).storedAudit_eq⟩

end

end

section
attribute [local instance] sampleJson

def sampleAuditEntry : AuditEntry where
  seq := 0
  ts := 1
  operator := "admin"
  action := "login"

theorem audit_sequence_sample : ∃ n : AuditNode, n.ever.length = 2 ∧ (storedAudit n.store).length = 1 ∧
    n.ever.Pairwise fun a b => a.seq < b.seq := by
  have hrun := Relation.ReflTransGen.tail (Relation.ReflTransGen.tail (Relation.ReflTransGen.single
    (AuditStep.append (n := AuditNode.start ∅) sampleAuditEntry 1)) (.append sampleAuditEntry 2)) (.prune 1)
  exact ⟨_, rfl, by decide +kernel, (audit_sequence (by simp) hrun).2.1 rfl⟩

/-- A dump restored after a further entry: the next one gets its number again. -/
theorem number_given_again : ¬ ∀ n : AuditNode, Relation.ReflTransGen AuditStep (AuditNode.start ∅) n →
    n.ever.Pairwise fun a b => a.seq ≠ b.seq := by
  intro h
  have hdump := Relation.ReflTransGen.single (AuditStep.dump (n := AuditNode.start ∅))
  have hfirst := hdump.tail (.append sampleAuditEntry 1)
  have hback := hfirst.tail (.restore (List.mem_singleton_self _))
  have hnumbers := h _ (hback.tail (.append sampleAuditEntry 2))
  revert hnumbers
  decide +kernel

end

end Defing
