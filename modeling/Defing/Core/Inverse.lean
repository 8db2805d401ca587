import Defing.Core.Patch

/-!
# Diffs are exact

On snapshots that have no group without items both ways to apply a diff undo
`computeDiff`, and so they do over a whole chain of snapshots. A diff names an
item once, and only where the two sides differ there.
-/

namespace Defing

open Std (ExtTreeMap)

/-- `diff::apply_diff`; `none` is its panic on an upsert that has no value. -/
def Diff.applyDiff (base : SnapshotMap) (diff : List DiffEntry) : Option SnapshotMap :=
  diff.foldlM (fun out d =>
    match d.kind with
    | .upsert => d.newValue.map fun v => setItem out d.group d.key v
    | .delete =>
      match out[d.group]? with
      | some m =>
        let m := m.erase d.key
        some (if m.isEmpty then out.erase d.group else out.insert d.group m)
      | none => some out) base

def NoEmptyGroup (snap : SnapshotMap) : Prop := ∀ (g : String) (items : StrMap Value), snap[g]? = some items → items ≠ ∅

def diffChain : SnapshotMap → List SnapshotMap → List (List DiffEntry)
  | _, [] => []
  | s, t :: rest => computeDiff s t :: diffChain t rest

variable {snap old new : SnapshotMap} {e : DiffEntry} {diff : List DiffEntry}

/-! ## Groups -/

theorem dropEmpty_eq_self (h : NoEmptyGroup snap) : dropEmpty snap = snap := by
  apply ExtTreeMap.ext_getElem?
  intro g
  rw [getElem?_dropEmpty]
  cases hs : snap[g]? with
  | none => rfl
  | some items =>
    have he : items.isEmpty = false := by
      by_contra hn
      exact h g items hs (ExtTreeMap.isEmpty_iff.mp (by simpa using hn))
    rw [Option.filter_some, he]
    rfl

theorem NoEmptyGroup.setItem (h : NoEmptyGroup snap) (group key : String) (v : Value) :
    NoEmptyGroup (setItem snap group key v) := by
  intro g items hg
  unfold Defing.setItem at hg
  rw [KV.getElem?_insert] at hg
  by_cases he : group = g
  · rw [if_pos he] at hg
    obtain rfl := Option.some.inj hg
    exact ExtTreeMap.insert_ne_empty
  · rw [if_neg he] at hg
    exact h g items hg

theorem NoEmptyGroup.applyEntry (h : NoEmptyGroup snap) (e : DiffEntry) : NoEmptyGroup (applyEntry snap e) := by
  unfold Defing.applyEntry
  split
  · split
    · exact h.setItem _ _ _
    · exact h
  · split
    · dsimp only
      split
      · intro g items hg
        rw [KV.getElem?_erase] at hg
        by_cases he : e.group = g
        · simp [he] at hg
        · rw [if_neg he] at hg
          exact h g items hg
      · rename_i hne
        intro g items hg
        rw [KV.getElem?_insert] at hg
        by_cases he : e.group = g
        · rw [if_pos he] at hg
          obtain rfl := Option.some.inj hg
          exact fun h => hne (ExtTreeMap.isEmpty_iff.mpr h)
        · rw [if_neg he] at hg
          exact h g items hg
    · exact h

theorem NoEmptyGroup.applyDiff (h : NoEmptyGroup snap) (diff : List DiffEntry) : NoEmptyGroup (applyDiff snap diff) := by
  unfold Defing.applyDiff
  induction diff generalizing snap with
  | nil => exact h
  | cons e diff ih => exact ih (h.applyEntry e)

/-! ## One diff -/

theorem applyDiff_computeDiff_eq (ho : NoEmptyGroup old) (hn : NoEmptyGroup new) : applyDiff old (computeDiff old new) = new := by
  rw [← dropEmpty_eq_self (ho.applyDiff _), applyDiff_computeDiff, dropEmpty_eq_self hn]

/-- Where every upsert has its value the two ways to apply a diff are one. -/
theorem Diff.applyDiff_eq (h : ∀ e ∈ diff, e.kind = .upsert → e.newValue ≠ none) (base : SnapshotMap) :
    Diff.applyDiff base diff = some (Defing.applyDiff base diff) := by
  induction diff generalizing base with
  | nil => rfl
  | cons e diff ih =>
    have hrest := ih (fun e' he' => h e' (by simp [he'])) (applyEntry base e)
    have he := h e (by simp)
    unfold Diff.applyDiff at hrest ⊢
    rw [List.foldlM_cons]
    unfold applyEntry at hrest
    cases hk : e.kind with
    | upsert =>
      rw [hk] at hrest he
      obtain ⟨v, hv⟩ := Option.ne_none_iff_exists'.mp (he rfl)
      rw [hv] at hrest ⊢
      simp only [Option.map_some, Option.bind_eq_bind, Option.bind_some]
      rw [hrest, Defing.applyDiff, Defing.applyDiff, List.foldl_cons, applyEntry, hk, hv]
    | delete =>
      rw [hk] at hrest
      cases hb : base[e.group]? with
      | none =>
        rw [hb] at hrest
        simp only [Option.bind_eq_bind, Option.bind_some]
        rw [hrest, Defing.applyDiff, Defing.applyDiff, List.foldl_cons, applyEntry, hk, hb]
      | some items =>
        rw [hb] at hrest
        simp only [Option.bind_eq_bind, Option.bind_some]
        rw [hrest, Defing.applyDiff, Defing.applyDiff, List.foldl_cons, applyEntry, hk, hb]

theorem upsert_of_mem (h : e ∈ computeDiff old new) (hk : e.kind = .upsert) : e.newValue ≠ none := by
  rcases mem_computeDiff.mp h with ⟨v, -, -, -, hv⟩ | ⟨-, -, hd, -⟩
  · simp [hv]
  · rw [hd] at hk; cases hk

theorem Diff.applyDiff_computeDiff (ho : NoEmptyGroup old) (hn : NoEmptyGroup new) :
    Diff.applyDiff old (computeDiff old new) = some new := by
  rw [Diff.applyDiff_eq fun _ => upsert_of_mem, applyDiff_computeDiff_eq ho hn]

/-! ## What a diff names -/

theorem differs_of_mem (h : e ∈ computeDiff old new) : item? old e.group e.key ≠ item? new e.group e.key := by
  rcases mem_computeDiff.mp h with ⟨v, hn, ho, -, -⟩ | ⟨ho, hn, -, -⟩
  · rwa [hn]
  · rw [hn]
    exact Option.isSome_iff_ne_none.mp ho

/-- At most one entry for each item of a map, under the item's name, names no item twice. -/
theorem entries_nodup {β : Type} (m : StrMap (StrMap β)) (f : String × StrMap β → String × β → Option DiffEntry)
    (hf : ∀ g i e, f g i = some e → (e.group, e.key) = (g.1, i.1)) :
    (m.toList.flatMap fun g => g.2.toList.filterMap (f g)).Pairwise fun x y => (x.group, x.key) ≠ (y.group, y.key) := by
  have hdistinct : ∀ {γ : Type} (m : StrMap γ), m.toList.Pairwise fun a b => a.1 ≠ b.1 := by
    intro γ m
    exact ExtTreeMap.distinct_keys_toList.imp fun h he => h (by rw [he]; exact Std.ReflCmp.compare_self)
  rw [List.pairwise_flatMap]
  constructor
  · intro g _
    rw [List.pairwise_filterMap]
    refine (hdistinct g.2).imp ?_
    intro a b hab x hx y hy h
    rw [hf g a x hx, hf g b y hy] at h
    exact hab (Prod.mk.inj h).2
  · refine (hdistinct m).imp ?_
    intro a b hab x hx y hy h
    obtain ⟨i, -, hx⟩ := List.mem_filterMap.mp hx
    obtain ⟨j, -, hy⟩ := List.mem_filterMap.mp hy
    rw [hf a i x hx, hf b j y hy] at h
    exact hab (Prod.mk.inj h).1

/-- The upserts are items of `new`, and the deletes are not. -/
theorem computeDiff_nodup (old new : SnapshotMap) : ((computeDiff old new).map fun e => (e.group, e.key)).Nodup := by
  rw [List.Nodup, List.pairwise_map]
  unfold computeDiff
  rw [List.pairwise_append]
  refine ⟨?_, ?_, ?_⟩
  · refine entries_nodup new (fun g i => if item? old g.1 i.1 ≠ some i.2 then
      some { group := g.1, key := i.1, kind := .upsert, newValue := some i.2 } else none) ?_
    intro g i e he
    simp only [Option.ite_none_right_eq_some, Option.some.injEq] at he
    rw [← he.2]
  · refine entries_nodup old (fun g i => if (item? new g.1 i.1).isNone then
      some { group := g.1, key := i.1, kind := .delete, newValue := none } else none) ?_
    intro g i e he
    simp only [Option.ite_none_right_eq_some, Option.some.injEq] at he
    rw [← he.2]
  · intro x hx y hy h
    simp only [List.mem_flatMap, List.mem_filterMap, Option.ite_none_right_eq_some, Option.some.injEq] at hx hy
    obtain ⟨g, hg, i, hi, -, rfl⟩ := hx
    obtain ⟨g', -, i', -, hnone, rfl⟩ := hy
    obtain ⟨hgg, hii⟩ := Prod.mk.inj h
    dsimp only at hgg hii
    rw [← hgg, ← hii] at hnone
    rw [ExtTreeMap.mem_toList_iff_getElem?_eq_some] at hg hi
    simp [item?, hg, hi] at hnone

theorem computeDiff_eq_nil (ho : NoEmptyGroup old) (hn : NoEmptyGroup new) : computeDiff old new = [] ↔ old = new := by
  constructor
  · intro h
    have happ := applyDiff_computeDiff_eq ho hn
    rwa [h] at happ
  · intro h
    subst h
    rw [List.eq_nil_iff_forall_not_mem]
    exact fun e he => differs_of_mem he rfl

/-! ## Chains -/

theorem replay_diffChain (s : SnapshotMap) (rest : List SnapshotMap) (h : ∀ t ∈ s :: rest, NoEmptyGroup t) :
    (diffChain s rest).foldl applyDiff s = (s :: rest).getLast (by simp) ∧
      (diffChain s rest).foldlM Diff.applyDiff s = some ((s :: rest).getLast (by simp)) := by
  induction rest generalizing s with
  | nil => exact ⟨rfl, rfl⟩
  | cons t rest ih =>
    have hs := h s (by simp)
    have ht := h t (by simp)
    obtain ⟨hl, hr⟩ := ih t fun u hu => h u (List.mem_cons_of_mem _ hu)
    rw [diffChain, List.foldl_cons, List.foldlM_cons, applyDiff_computeDiff_eq hs ht, Diff.applyDiff_computeDiff hs ht,
      Option.bind_eq_bind, Option.bind_some, List.getLast_cons (by simp)]
    exact ⟨hl, hr⟩

/-- Diffs lead back, name no item needlessly, and replay chains. -/
theorem diffs_exact (old new s : SnapshotMap) (rest : List SnapshotMap) (ho : NoEmptyGroup old) (hn : NoEmptyGroup new)
    (hchain : ∀ t ∈ s :: rest, NoEmptyGroup t) :
    (applyDiff old (computeDiff old new) = new ∧ Diff.applyDiff old (computeDiff old new) = some new) ∧
      (((computeDiff old new).map fun e => (e.group, e.key)).Nodup ∧
        (∀ e ∈ computeDiff old new, item? old e.group e.key ≠ item? new e.group e.key) ∧
        (computeDiff old new = [] ↔ old = new)) ∧
      (diffChain s rest).foldl applyDiff s = (s :: rest).getLast (by simp) ∧
        (diffChain s rest).foldlM Diff.applyDiff s = some ((s :: rest).getLast (by simp)) :=
  ⟨⟨applyDiff_computeDiff_eq ho hn, Diff.applyDiff_computeDiff ho hn⟩,
    ⟨computeDiff_nodup old new, fun _ => differs_of_mem, computeDiff_eq_nil ho hn⟩, replay_diffChain s rest hchain⟩

theorem noEmptyGroup_setItem (group key : String) (v : Value) : NoEmptyGroup (setItem ∅ group key v) := by
  have hempty : NoEmptyGroup (∅ : SnapshotMap) := by
    intro g items h
    simp at h
  exact hempty.setItem group key v

theorem diffs_exact_sample :
    let one := setItem (∅ : SnapshotMap) "db" "host" (.string "h")
    let two := setItem (∅ : SnapshotMap) "web" "port" (.int 80)
    (diffChain one [two, one]).foldl applyDiff one = one ∧ computeDiff one two ≠ [] := by
  intro one two
  have h1 : NoEmptyGroup one := noEmptyGroup_setItem _ _ _
  have h2 : NoEmptyGroup two := noEmptyGroup_setItem _ _ _
  have hchain : ∀ t ∈ one :: [two, one], NoEmptyGroup t := by simp [h1, h2]
  have hex := diffs_exact one two one [two, one] h1 h2 hchain
  refine ⟨hex.2.2.1, fun h => ?_⟩
  have heq := hex.2.1.2.2.mp h
  have hg := congrArg (fun m : SnapshotMap => m["db"]?) heq
  simp [one, two, setItem] at hg

end Defing
