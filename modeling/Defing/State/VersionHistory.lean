import Defing.Core.Config
import Defing.State.Renewal

/-!
# The history of a branch

It has a record for each version that is stored, once, in the order of the
numbers.
-/

namespace Defing

open KV (Plain segments)

variable [SerdeJson] {id id' : ProjectId} {b b' : BranchName} {t : Store} {hist : List VersionRecord} {r : VersionRecord} {k : String}

omit [SerdeJson] in
theorem segments_ne_nil (s : String) : segments s ≠ [] := by
  intro h
  exact List.splitOn_ne_nil '/' s.toList (List.map_eq_nil_iff.mp h)

omit [SerdeJson] in
theorem eq_of_segments_singleton {s x : String} (h : segments s = [x]) : s = x := by
  obtain ⟨l, hl, hx⟩ := List.map_eq_singleton_iff.mp h
  have hjoin : [ '/'].intercalate (s.toList.splitOn '/') = s.toList := List.intercalate_splitOn '/'
  rw [hl] at hjoin
  rw [← hx, ← String.toList_inj, String.toList_ofList]
  simpa using hjoin.symm

omit [SerdeJson] in
/-- The stem of the versions of a branch, put before what need not be a number. -/
theorem segments_versionStem (id : ProjectId) (b : BranchName) (rest : String) :
    segments (kProject ++ id ++ kBranch ++ b ++ kVersion ++ rest) =
      "p" :: (segments id ++ "b" :: (segments b ++ "v" :: segments rest)) := by
  have e : kProject ++ id ++ kBranch ++ b ++ kVersion ++ rest =
      "p" ++ "/" ++ (id ++ "/" ++ ("b" ++ "/" ++ (b ++ "/" ++ ("v" ++ "/" ++ rest)))) :=
    String.toList_inj.mp (by simp [kProject, kBranch, kVersion])
  have hp : ∀ a ∈ ["p", "b", "v"], Plain a := by simp [Plain]
  rw [e, KV.segments_cons (hp "p" (by simp)), KV.segments_append, KV.segments_cons (hp "b" (by simp)), KV.segments_append,
    KV.segments_cons (hp "v" (by simp))]

omit [SerdeJson] in
theorem branch_of_versionStem (hn : Named id' b') {n : Nat}
    (h : startsWith (kProject ++ id ++ kBranch ++ b ++ kVersion) (versionKey id' b' n)) : id' = id ∧ b' = b := by
  obtain ⟨c, hc⟩ := startsWith_iff.mp h
  have hkey : versionKey id' b' n = kProject ++ id ++ kBranch ++ b ++ kVersion ++ String.ofList c :=
    String.toList_inj.mp (by rw [← hc]; simp)
  have hsegments := segments_versionKey hn.plain.1 hn.plain.2 n
  rw [hkey, segments_versionStem] at hsegments
  obtain ⟨i, is, hi⟩ := List.exists_cons_of_ne_nil (segments_ne_nil id)
  obtain ⟨j, js, hj⟩ := List.exists_cons_of_ne_nil (segments_ne_nil b)
  obtain ⟨l, ls, hl⟩ := List.exists_cons_of_ne_nil (segments_ne_nil (String.ofList c))
  rw [hi, hj, hl] at hsegments
  have hlength := congrArg List.length hsegments
  simp only [List.length_cons, List.length_append, List.length_nil] at hlength
  obtain rfl := List.eq_nil_of_length_eq_zero (show is.length = 0 by omega)
  obtain rfl := List.eq_nil_of_length_eq_zero (show js.length = 0 by omega)
  simp only [List.cons_append, List.nil_append, List.cons.injEq, true_and] at hsegments
  obtain ⟨rfl, rfl, -⟩ := hsegments
  exact ⟨(eq_of_segments_singleton hi).symm, (eq_of_segments_singleton hj).symm⟩

theorem versionHistory_exec : (versionHistory id b).eval t =
    .ok ((parsed ((rowsUnder (kProject ++ id ++ kBranch ++ b ++ kVersion) t).filter fun row =>
      ¬ (endsWith "/snap" row.1 ∨ endsWith "/diff" row.1))).insertionSort fun (a b : VersionRecord) => a.no ≤ b.no) := by
  change ((getPrefixMerged _ >>= _ : M _).exec ⟨t, []⟩).1 = _
  rw [KV.Prog.exec_bind_of_ok (getPrefixMerged_exec _)]
  rfl

theorem version_of_row (ht : WellPlaced t) {v : Stored} (hk : startsWith (kProject ++ id ++ kBranch ++ b ++ kVersion) k)
    (hv : t[k]? = some v) (hr : (Codec.decode v : Option VersionRecord) = some r) :
    Named id b ∧ k = versionKey id b r.no ∧ v = Codec.encode r := by
  have hplaced := ht k v hv
  cases v <;> try cases hr
  obtain ⟨id', b', hn, rfl⟩ := hplaced
  obtain ⟨rfl, rfl⟩ := branch_of_versionStem hn hk
  exact ⟨hn, rfl, rfl⟩

theorem mem_versionHistory (ht : WellPlaced t) (h : (versionHistory id b).eval t = .ok hist) :
    r ∈ hist ↔ Named id b ∧ t[versionKey id b r.no]? = some (Codec.encode r) := by
  rw [versionHistory_exec] at h
  obtain rfl := Except.ok.inj h
  rw [List.mem_insertionSort, parsed, List.mem_filterMap]
  constructor
  · intro hr
    obtain ⟨⟨k, v⟩, hrow, hdecode⟩ := hr
    obtain ⟨hk, hv⟩ := mem_rowsUnder.mp (List.mem_filter.mp hrow).1
    obtain ⟨hn, rfl, rfl⟩ := version_of_row ht hk hv hdecode
    exact ⟨hn, hv⟩
  · intro hr
    obtain ⟨hn, hv⟩ := hr
    refine ⟨(versionKey id b r.no, Codec.encode r), List.mem_filter.mpr ⟨mem_rowsUnder.mpr ⟨?_, hv⟩, ?_⟩, decode_encode_exact r⟩
    · exact startsWith_iff.mpr ⟨(toString r.no).toList, by simp [versionKey]⟩
    · obtain ⟨hs, hd⟩ := last_digits (n := r.no) (k := versionKey id b r.no) (by rw [segments_versionKey hn.plain.1 hn.plain.2]; rfl)
      simp [hs, hd]

omit [SerdeJson] in
theorem placed_at_versionKey (hn : Named id b) {n : Nat} {v : Stored} (h : Placed (versionKey id b n) v) :
    ∃ r : VersionRecord, v = Codec.encode r ∧ r.no = n := by
  have hs := h.shape
  rw [segments_versionKey hn.plain.1 hn.plain.2] at hs
  cases v <;> simp [Shape] at hs
  exact ⟨_, rfl, hs.symm⟩

theorem exists_mem_versionHistory (ht : WellPlaced t) (h : (versionHistory id b).eval t = .ok hist) {n : Nat} :
    (∃ r ∈ hist, r.no = n) ↔ Named id b ∧ t[versionKey id b n]? ≠ none := by
  constructor
  · intro ⟨r, hr, hno⟩
    obtain ⟨hn, hrow⟩ := (mem_versionHistory ht h).mp hr
    exact ⟨hn, by rw [← hno, hrow]; exact Option.some_ne_none _⟩
  · intro ⟨hn, hrow⟩
    obtain ⟨v, hv⟩ := Option.ne_none_iff_exists'.mp hrow
    obtain ⟨r, rfl, rfl⟩ := placed_at_versionKey hn (ht _ _ hv)
    exact ⟨r, (mem_versionHistory ht h).mpr ⟨hn, hv⟩, rfl⟩

theorem versionHistory_sorted (h : (versionHistory id b).eval t = .ok hist) : hist.Pairwise fun r r' => r.no ≤ r'.no := by
  rw [versionHistory_exec] at h
  obtain rfl := Except.ok.inj h
  exact List.pairwise_insertionSort _ _

theorem versionHistory_strict (ht : WellPlaced t) (h : (versionHistory id b).eval t = .ok hist) :
    hist.Pairwise fun r r' => r.no < r'.no := by
  have hsorted := versionHistory_sorted h
  rw [versionHistory_exec] at h
  obtain rfl := Except.ok.inj h
  refine (hsorted.and ?_).imp fun h => Nat.lt_of_le_of_ne h.1 h.2
  refine (List.perm_insertionSort _ _).symm.pairwise ?_ fun h => Ne.symm h
  refine List.pairwise_filterMap.mpr (List.Pairwise.filter _ ?_)
  have hkeys : (rowsUnder (kProject ++ id ++ kBranch ++ b ++ kVersion) t).Pairwise fun a c => ¬ compare a.1 c.1 = .eq :=
    Std.ExtTreeMap.distinct_keys_toList
  refine hkeys.imp_of_mem fun {row row'} hrow hrow' hne r hr r' hr' e => hne ?_
  obtain ⟨hk, hv⟩ := mem_rowsUnder.mp hrow
  obtain ⟨hk', hv'⟩ := mem_rowsUnder.mp hrow'
  rw [(version_of_row ht hk hv hr).2.1, (version_of_row ht hk' hv' hr').2.1, e]
  exact Std.ReflCmp.compare_self

end Defing
