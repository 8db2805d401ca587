import Defing.Core.Dump

/-!
# What is dumped is restored

The pages of a dump are the rows of the store, and any batches of a dump restore
it in place of another store. The two stores page a prefix alike unless the
cursor stands before it, with other keys in between.
-/

namespace Defing

open Std (ExtTreeMap)

variable {t s : Table} {sm : StateMachine} {stem : Bytes} {after : Option Bytes} {budget : Nat} {rows : KeyValuePairs}

/-! ## Dumps -/

theorem rowsAfter_none (t : Table) : rowsAfter t none = t.toList := List.filter_eq_self.mpr fun _ _ => rfl

theorem getPrefixPage_eq_nil {b : Backend} : t.getPrefixPage [] after budget b = [] ↔ rowsAfter t after = [] := by
  rw [getPrefixPage_nil]
  exact Scan.cut_eq_nil

theorem dumpFrom_spec (sm : StateMachine) (budget : Nat) (after : Option Bytes) :
    (sm.dumpFrom budget after).flatten = rowsAfter sm.buf.store after ∧ ∀ page ∈ sm.dumpFrom budget after, page ≠ [] := by
  induction h : (rowsAfter sm.buf.store after).length using Nat.strong_induction_on generalizing after with
  | _ n ih =>
    rw [StateMachine.dumpFrom.eq_def]
    split
    · rename_i hlast
      have hnil := getPrefixPage_eq_nil.mp (List.getLast?_eq_none_iff.mp hlast)
      rw [hnil]
      exact ⟨rfl, by simp⟩
    · rename_i last hlast
      have happ := rowsAfter_eq sm.buf.store after budget sm.backend hlast
      have hpos := List.length_pos_of_mem (List.mem_of_getLast? hlast)
      have hlen := congrArg List.length happ
      rw [List.length_append] at hlen
      obtain ⟨hflat, hne⟩ := ih _ (by omega) (some last.1) rfl
      constructor
      · rw [List.flatten_cons, hflat, ← happ]
      · refine List.forall_mem_cons.mpr ⟨?_, hne⟩
        exact List.length_pos_iff.mp hpos

theorem dumpAll_eq (h : sm.buf.pending = []) : sm.dumpAll = sm.buf.store.toList := by
  unfold StateMachine.dumpAll KV.Buf.rows
  rw [h, List.foldl_nil]
  have hall : (sm.buf.store.filter fun k _ => ([] : Bytes).isPrefixOf k) = sm.buf.store := by
    refine ExtTreeMap.ext_getElem? fun k => ?_
    rw [KV.getElem?_filter]
    rfl
  rw [hall]

/-! ## Restores -/

theorem getElem?_eraseKeys (t : Table) (ks : List Bytes) (a : Bytes) :
    (ks.foldl (fun t k => t.erase k) t)[a]? = if a ∈ ks then none else t[a]? := by
  induction ks generalizing t with
  | nil => simp
  | cons k ks ih =>
    rw [List.foldl_cons, ih, KV.getElem?_erase]
    by_cases ha : a = k
    · simp [ha]
    · simp [ha, Ne.symm ha]

theorem writeBatch_keys (t : Table) (batch : KeyValuePairs) :
    KV.writeBatch t batch (t.getPrefixKeys []) = KV.writeBatch ∅ batch [] := by
  have hclear : (t.getPrefixKeys []).foldl (fun t k => t.erase k) t = ∅ := by
    refine ExtTreeMap.ext_getElem? fun a => ?_
    have hscan : t.getPrefix [] = t.toList := by
      rw [getPrefix_eq_filter]
      exact List.filter_eq_self.mpr fun r _ => rfl
    rw [getElem?_eraseKeys, Table.getPrefixKeys, hscan, ExtTreeMap.map_fst_toList_eq_keys, ExtTreeMap.getElem?_empty]
    by_cases ha : a ∈ t.keys
    · rw [if_pos ha]
    · rw [if_neg ha]
      rw [ExtTreeMap.mem_keys] at ha
      exact ExtTreeMap.getElem?_eq_none ha
  unfold KV.writeBatch
  rw [hclear, List.foldl_nil]

theorem restoreFrom_false (t : Table) (chunks : List KeyValuePairs) :
    StateMachine.restoreFrom t false (chunks.map .ok) = (.ok (), KV.writeBatch t chunks.flatten []) := by
  induction chunks generalizing t with
  | nil => rfl
  | cons chunk chunks ih =>
    have happ : KV.writeBatch (KV.writeBatch t chunk []) chunks.flatten [] = KV.writeBatch t (chunk :: chunks).flatten [] := by
      rw [List.flatten_cons]
      exact List.foldl_append.symm
    rw [List.map_cons, StateMachine.restoreFrom, if_neg Bool.false_ne_true]
    by_cases hnil : chunk = []
    · rw [if_neg (not_not.mpr hnil), ih, hnil]
      rfl
    · rw [if_pos hnil, ih, happ]

theorem restoreFrom_true (t : Table) (chunks : List KeyValuePairs) :
    StateMachine.restoreFrom t true (chunks.map .ok) = (.ok (), KV.writeBatch ∅ chunks.flatten []) := by
  cases chunks with
  | nil =>
    have hclear := writeBatch_keys t []
    rw [List.map_nil, StateMachine.restoreFrom, if_pos rfl]
    dsimp only
    by_cases hex : t.getPrefixKeys [] = []
    · rw [hex] at hclear
      rw [if_neg (not_not.mpr hex)]
      exact congrArg (Prod.mk _) hclear
    · rw [if_pos hex, hclear]
      rfl
  | cons chunk chunks =>
    rw [List.map_cons, StateMachine.restoreFrom, if_pos rfl, restoreFrom_false, writeBatch_keys, List.flatten_cons]
    exact congrArg (Prod.mk _) List.foldl_append.symm

theorem getElem?_insertAll (t : Table) {rows : KeyValuePairs} (h : Scan.Sorted rows) {a v : Bytes} :
    (KV.writeBatch t rows [])[a]? = some v ↔ (a, v) ∈ rows ∨ (∀ r ∈ rows, r.1 ≠ a) ∧ t[a]? = some v := by
  induction rows generalizing t with
  | nil => simp [KV.writeBatch]
  | cons r rows ih =>
    obtain ⟨hr, hrows⟩ := List.pairwise_cons.mp h
    have hstep : KV.writeBatch t (r :: rows) [] = KV.writeBatch (t.insert r.1 r.2) rows [] := rfl
    rw [hstep, ih _ hrows, KV.getElem?_insert, List.mem_cons, List.forall_mem_cons]
    by_cases ha : r.1 = a
    · have hnot : ∀ s ∈ rows, s.1 ≠ a := by
        intro s hs heq
        have hlt := hr s hs
        rw [ha, heq, Std.ReflOrd.compare_self] at hlt
        cases hlt
      have hmem : (a, v) ∉ rows := fun hv => hnot (a, v) hv rfl
      rw [if_pos ha, Option.some.injEq]
      constructor
      · intro h
        rcases h with h | ⟨_, rfl⟩
        · exact absurd h hmem
        · exact .inl (.inl (by rw [← ha]))
      · intro h
        rcases h with (rfl | h) | ⟨⟨hne, _⟩, _⟩
        · exact .inr ⟨hnot, rfl⟩
        · exact absurd h hmem
        · exact absurd ha hne
    · have hne : (a, v) ≠ r := fun h => ha (by rw [← h])
      rw [if_neg ha]
      simp [hne, ha]

theorem insertAll_toList (s : Table) : KV.writeBatch ∅ s.toList [] = s := by
  refine ExtTreeMap.ext_getElem? fun a => ?_
  refine Option.ext fun v => ?_
  rw [getElem?_insertAll ∅ (sorted_toList s), ExtTreeMap.mem_toList_iff_getElem?_eq_some]
  simp

theorem flatten_chunkPairs (pairs : KeyValuePairs) (chunkBytes : Nat) :
    (StateMachine.chunkPairs pairs chunkBytes).flatten = pairs := by
  induction h : pairs.length using Nat.strong_induction_on generalizing pairs with
  | _ n ih =>
    cases pairs with
    | nil =>
      rw [StateMachine.chunkPairs]
      rfl
    | cons r pairs =>
      have happ := StateMachine.chunkEnd_append (max chunkBytes 1) 0 true (r :: pairs)
      have hpos : 0 < (StateMachine.chunkEnd (max chunkBytes 1) 0 true (r :: pairs)).1.length := by
        rw [StateMachine.chunkEnd, if_pos (.inr rfl)]
        exact Nat.succ_pos _
      have hlen := congrArg List.length happ
      rw [List.length_append] at hlen
      rw [StateMachine.chunkPairs, List.flatten_cons, ih _ (by omega) _ rfl, happ]

/-! ## Pages of the two stores -/

/-- The cursor stands before the keys with the prefix, and some key without it is in between. -/
def InWay (t : Table) (stem : Bytes) (after : Option Bytes) : Prop :=
  ∃ a k k' : Bytes, after = some a ∧ k ∈ t ∧ k' ∈ t ∧ compare k a ≠ .lt ∧ ¬ stem <+: k ∧ stem <+: k' ∧ compare k k' = .lt

theorem exists_row {k : Bytes} (h : k ∈ t) : ∃ v, (k, v) ∈ t.toList := by
  obtain ⟨v, hv⟩ := Option.isSome_iff_exists.mp (ExtTreeMap.mem_iff_isSome_getElem?.mp h)
  exact ⟨v, ExtTreeMap.mem_toList_iff_getElem?_eq_some.mpr hv⟩

theorem mem_of_row {r : Bytes × Bytes} (h : r ∈ t.toList) : r.1 ∈ t := by
  refine ExtTreeMap.mem_iff_isSome_getElem?.mpr ?_
  rw [ExtTreeMap.mem_toList_iff_getElem?_eq_some.mp h]
  rfl

def redbRows (t : Table) (stem : Bytes) (after : Option Bytes) : KeyValuePairs :=
  ((Scan.rangeFrom (after.getD stem) t.toList).takeWhile fun r => stem.isPrefixOf r.1).filter fun r => !Table.upTo after r.1

def pageRows (t : Table) (stem : Bytes) (after : Option Bytes) : KeyValuePairs :=
  (t.toList.filter fun r => stem.isPrefixOf r.1).filter fun r => !Table.upTo after r.1

theorem redbPage_eq : t.getPrefixPage stem after budget .redb = Scan.cut rowSize (max budget 1) 0 (redbRows t stem after) :=
  redbPageOf_eq 0 _

theorem defaultPage_eq : t.getPrefixPage stem after budget .default = Scan.cut rowSize (max budget 1) 0 (pageRows t stem after) := by
  rw [Table.getPrefixPage, pageOf_eq, getPrefix_eq_filter]
  · rfl
  · rw [getPrefix_eq_filter]
    exact (sorted_toList t).filter _

theorem redbRows_eq (h : ¬ InWay t stem after) : redbRows t stem after = pageRows t stem after := by
  cases after with
  | none => exact congrArg (List.filter _) (Scan.scan_eq_filter (sorted_toList t) stem)
  | some a =>
    have hrange := Scan.rangeFrom_eq_filter (sorted_toList t) a
    have htake : (Scan.rangeFrom a t.toList).takeWhile (fun r => stem.isPrefixOf r.1) =
        (Scan.rangeFrom a t.toList).filter fun r => stem.isPrefixOf r.1 := by
      rw [hrange]
      refine Scan.takeWhile_eq_filter ((sorted_toList t).filter _) ?_
      intro r hr s hs hrs hstem
      obtain ⟨hrt, hra⟩ := List.mem_filter.mp hr
      rw [List.isPrefixOf_iff_prefix] at hstem ⊢
      by_contra hno
      exact h ⟨a, r.1, s.1, rfl, mem_of_row hrt, mem_of_row (List.mem_filter.mp hs).1, by simpa using hra, hno, hstem, hrs⟩
    unfold redbRows pageRows
    rw [Option.getD_some, htake, hrange, List.filter_filter, List.filter_filter, List.filter_filter]
    refine List.filter_congr ?_
    intro r _
    cases hup : Table.upTo (some a) r.1 with
    | true => simp
    | false => simp [Scan.lt_asymm (upTo_some.mp hup)]

theorem redbRows_nil (h : InWay t stem after) : redbRows t stem after = [] ∧ pageRows t stem after ≠ [] := by
  obtain ⟨a, k, k', rfl, hk, hk', hka, hstem, hstem', hkk⟩ := h
  obtain ⟨v, hv⟩ := exists_row hk
  obtain ⟨v', hv'⟩ := exists_row hk'
  have hsorted : Scan.Sorted (Scan.rangeFrom a t.toList) := by
    rw [Scan.rangeFrom_eq_filter (sorted_toList t)]
    exact (sorted_toList t).filter _
  have hmem : (k, v) ∈ Scan.rangeFrom a t.toList := by
    rw [Scan.rangeFrom_eq_filter (sorted_toList t)]
    exact List.mem_filter.mpr ⟨hv, by simpa using hka⟩
  constructor
  · refine List.filter_eq_nil_iff.mpr ?_
    intro r hr
    rw [Option.getD_some] at hr
    exfalso
    have hr' := List.mem_takeWhile_imp (p := fun r : Bytes × Bytes => stem.isPrefixOf r.1) hr
    have hpre : stem <+: r.1 := List.isPrefixOf_iff_prefix.mp hr'
    refine hstem ?_
    cases hcmp : compare k r.1 with
    | lt =>
      have hk' : (fun r : Bytes × Bytes => stem.isPrefixOf r.1) (k, v) = true :=
        Scan.of_mem_takeWhile hsorted (fun _ _ => Scan.lt_asymm) hr hmem hcmp
      exact List.isPrefixOf_iff_prefix.mp hk'
    | eq =>
      rw [Std.LawfulEqOrd.eq_of_compare hcmp]
      exact hpre
    | gt =>
      refine Scan.prefix_of_between hstem' ?_ hkk
      intro hlt
      have hrk := Std.OrientedCmp.gt_iff_lt.mp hcmp
      exact Scan.not_lt_prefix hpre (Std.TransCmp.lt_trans hrk hlt)
  · refine List.ne_nil_of_mem (a := (k', v')) (List.mem_filter.mpr ⟨List.mem_filter.mpr ⟨hv', ?_⟩, ?_⟩)
    · exact List.isPrefixOf_iff_prefix.mpr hstem'
    · have hak : compare a k' = .lt := by
        cases hcmp : compare k a with
        | lt => exact absurd hcmp hka
        | eq => rw [← Std.LawfulEqOrd.eq_of_compare hcmp]; exact hkk
        | gt => exact Std.TransCmp.lt_trans (Std.OrientedCmp.gt_iff_lt.mp hcmp) hkk
      rw [upTo_some.mpr hak]
      rfl

theorem pages_agree_iff : t.getPrefixPage stem after budget .redb = t.getPrefixPage stem after budget .default ↔
    ¬ InWay t stem after := by
  rw [redbPage_eq, defaultPage_eq]
  constructor
  · intro h hway
    obtain ⟨hnil, hne⟩ := redbRows_nil hway
    rw [hnil, Scan.cut] at h
    exact hne (Scan.cut_eq_nil.mp h.symm)
  · intro h
    rw [redbRows_eq h]

/-! ## Dumps and restores -/

/-- The dump of a store goes out in pages and comes back from any chunks, whatever was there before; the pages of a
prefix are alike unless a key without it is in the way. -/
theorem dump_restores (sm : StateMachine) (hsm : sm.buf.pending = []) :
    (sm.dumpAll.Pairwise fun r s => compare r.1 s.1 = .lt) ∧
    (∀ k v, (k, v) ∈ sm.dumpAll ↔ sm.buf.store[k]? = some v) ∧
    (∀ budget, (sm.dumpBatches budget).flatten = sm.dumpAll ∧ ∀ page ∈ sm.dumpBatches budget, page ≠ []) ∧
    (∀ (prior : StateMachine) (chunks : List KeyValuePairs), chunks.flatten = sm.dumpAll →
      prior.restoreStream (chunks.map .ok) = (.ok (), { prior with buf := { prior.buf with store := sm.buf.store } })) ∧
    (∀ chunkBytes, (StateMachine.chunkPairs sm.dumpAll chunkBytes).flatten = sm.dumpAll) ∧
    (∀ prior : StateMachine,
      prior.restoreAll sm.dumpAll = (.ok (), { prior with buf := { prior.buf with store := sm.buf.store } })) ∧
    ∀ stem after budget, Table.getPrefixPage sm.buf.store stem after budget .redb =
      Table.getPrefixPage sm.buf.store stem after budget .default ↔ ¬ InWay sm.buf.store stem after := by
  have hall := dumpAll_eq hsm
  have hrestore (prior : StateMachine) (chunks : List KeyValuePairs) (h : chunks.flatten = sm.dumpAll) :
      prior.restoreStream (chunks.map .ok) = (.ok (), { prior with buf := { prior.buf with store := sm.buf.store } }) := by
    unfold StateMachine.restoreStream
    rw [restoreFrom_true, h, hall, insertAll_toList]
  refine ⟨?_, ?_, ?_, hrestore, ?_, ?_, ?_⟩
  · rw [hall]
    exact sorted_toList sm.buf.store
  · intro k v
    rw [hall]
    exact ExtTreeMap.mem_toList_iff_getElem?_eq_some
  · intro budget
    obtain ⟨hflat, hne⟩ := dumpFrom_spec sm (max budget 1) none
    exact ⟨by rw [hall, ← rowsAfter_none]; exact hflat, hne⟩
  · exact fun chunkBytes => flatten_chunkPairs sm.dumpAll chunkBytes
  · exact fun prior => hrestore prior _ (flatten_chunkPairs sm.dumpAll _)
  · exact fun stem after budget => pages_agree_iff

/-! ## Runs on fixed inputs -/

def twoKeys : Table := ((∅ : Table).insert [0x61] [1]).insert [0x62] [2]

theorem mem_twoKeys {k : Bytes} (h : k = [0x61] ∨ k = [0x62]) : k ∈ twoKeys := by
  rcases h with rfl | rfl <;> simp [twoKeys]

theorem toList_twoKeys : twoKeys.toList = [([0x61], [1]), ([0x62], [2])] := by rfl

theorem dump_restores_sample :
    (StateMachine.restoreStream ⟨.redb, { store := (∅ : Table).insert [0x61] [9] }⟩
      [.ok [([0x61], [1])], .ok [], .ok [([0x62], [2])]]).2.buf.store = twoKeys := by
  have h := (dump_restores ⟨.redb, { store := twoKeys }⟩ rfl).2.2.2.1 ⟨.redb, { store := (∅ : Table).insert [0x61] [9] }⟩
    [[([0x61], [1])], [], [([0x62], [2])]] (by rw [dumpAll_eq rfl, toList_twoKeys]; rfl)
  exact congrArg (fun r => r.2.buf.store) h

/-- A cursor before the prefix stops the scan of redb at once. -/
theorem pages_differ : ¬ ∀ (t : Table) (stem : Bytes) (after : Option Bytes) (budget : Nat),
    t.getPrefixPage stem after budget .redb = t.getPrefixPage stem after budget .default := by
  intro h
  refine pages_agree_iff.mp (h twoKeys [0x62] (some [0x61]) 100) ⟨[0x61], [0x61], [0x62], rfl, ?_, ?_, ?_, ?_, ?_, ?_⟩
  · exact mem_twoKeys (.inl rfl)
  · exact mem_twoKeys (.inr rfl)
  · decide
  · decide
  · decide
  · decide

end Defing
