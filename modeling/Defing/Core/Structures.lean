import Defing.Core.Items

/-!
# The items of a structure

The indices that commands look items up in, and the items of a structure that
has passed its checks: each group and key names one of them.
-/

namespace Defing

variable {struct : Structure} {groups : List GroupDef} {g k : String} {d d' : ItemDef} {ty : ValueType}

/-! ## Indices -/

theorem mem_of_itemIndex (h : item? (itemIndex struct) g k = some d) : (g, d) ∈ struct.allItems ∧ d.key = k := by
  rcases of_item?_foldl_setItem (fun e : String × ItemDef => (e.1, e.2.key)) (fun e => e.2) h with
    ⟨⟨g', d'⟩, hm, hgk, rfl⟩ | h
  · obtain ⟨rfl, rfl⟩ := Prod.mk.inj hgk
    exact ⟨hm, rfl⟩
  · rw [item?_empty] at h
    cases h

theorem mem_of_sharedItems (h : item? (sharedItems struct) g k = some ty) :
    ∃ d, (g, d) ∈ struct.allItems ∧ d.key = k ∧ d.shared = true ∧ d.ty = ty := by
  rcases of_item?_foldl_setItem (fun e : String × ItemDef => (e.1, e.2.key)) (fun e => e.2.ty) h with
    ⟨⟨g', d⟩, hm, hgk, rfl⟩ | h
  · obtain ⟨rfl, rfl⟩ := Prod.mk.inj hgk
    obtain ⟨hm, hs⟩ := List.mem_filter.mp hm
    exact ⟨d, hm, rfl, hs, rfl⟩
  · rw [item?_empty] at h
    cases h

theorem sharedIn_iff : sharedIn struct g k ↔ ∃ d, (g, d) ∈ struct.allItems ∧ d.key = k ∧ d.shared = true := by
  simp only [sharedIn, List.any_eq_true, decide_eq_true_eq, Prod.exists]
  constructor
  · rintro ⟨_, d, hm, rfl, hk, hs⟩
    exact ⟨d, hm, hk, hs⟩
  · rintro ⟨d, hm, hk, hs⟩
    exact ⟨g, d, hm, rfl, hk, hs⟩

theorem known_iff : known struct g k ↔ ∃ d, (g, d) ∈ struct.allItems ∧ d.key = k := by
  simp only [known, List.any_eq_true, decide_eq_true_eq, Prod.exists]
  constructor
  · rintro ⟨_, d, hm, rfl, hk⟩
    exact ⟨d, hm, hk⟩
  · rintro ⟨d, hm, hk⟩
    exact ⟨g, d, hm, rfl, hk⟩

/-! ## Structures that have passed their checks -/

def Sound (groups : List GroupDef) : Prop := ∀ v, validateStructure { version := v, groups } = []

theorem sound_iff : Sound struct.groups ↔ validateStructure struct = [] :=
  ⟨fun h => h struct.version, fun h _ => h⟩

theorem nodup_of_validateGroup {g : GroupDef} : ∀ {items : List ItemDef} {keys : List String},
    validateGroup.go g keys items = [] → (items.map (·.key)).Nodup ∧ ∀ item ∈ items, item.key ∉ keys
  | [], _, _ => ⟨List.nodup_nil, fun _ h => absurd h List.not_mem_nil⟩
  | item :: items, keys, h => by
    simp only [validateGroup.go, List.append_eq_nil_iff] at h
    obtain ⟨⟨⟨_, hdup⟩, _⟩, hrest⟩ := h
    obtain ⟨hd, hk⟩ := nodup_of_validateGroup hrest
    have hitem : item.key ∉ keys := by
      intro hm
      rw [if_pos hm] at hdup
      cases hdup
    refine ⟨?_, ?_⟩
    · rw [List.map_cons, List.nodup_cons]
      refine ⟨fun hm => ?_, hd⟩
      obtain ⟨item', hm', e⟩ := List.mem_map.mp hm
      exact hk item' hm' (e ▸ List.mem_cons_self)
    · intro item' hm
      rcases List.mem_cons.mp hm with rfl | hm
      · exact hitem
      · exact fun h => hk item' hm (List.mem_cons_of_mem _ h)

theorem groups_of_validateGroups : ∀ {groups : List GroupDef} {seen : List String}, validateGroups seen groups = [] →
    (groups.map (·.name)).Nodup ∧ ∀ g ∈ groups, (g.items.map (·.key)).Nodup ∧ g.name ∉ seen
  | [], _, _ => ⟨List.nodup_nil, fun _ h => absurd h List.not_mem_nil⟩
  | g :: groups, seen, h => by
    simp only [validateGroups, validateGroup, List.append_eq_nil_iff] at h
    obtain ⟨⟨⟨_, hdup⟩, hitems⟩, hrest⟩ := h
    obtain ⟨hd, hg⟩ := groups_of_validateGroups hrest
    have hname : g.name ∉ seen := by
      intro hm
      rw [if_pos hm] at hdup
      cases hdup
    refine ⟨?_, ?_⟩
    · rw [List.map_cons, List.nodup_cons]
      refine ⟨fun hm => ?_, hd⟩
      obtain ⟨g', hm', e⟩ := List.mem_map.mp hm
      exact (hg g' hm').2 (e ▸ List.mem_cons_self)
    · intro g' hm
      rcases List.mem_cons.mp hm with rfl | hm
      · exact ⟨(nodup_of_validateGroup hitems).1, hname⟩
      · exact ⟨(hg g' hm).1, fun h => (hg g' hm).2 (List.mem_cons_of_mem _ h)⟩

theorem Sound.unique (h : Sound struct.groups) (hd : (g, d) ∈ struct.allItems) (hd' : (g, d') ∈ struct.allItems)
    (hk : d.key = d'.key) : d = d' := by
  have hv := sound_iff.mp h
  simp only [validateStructure, List.append_eq_nil_iff] at hv
  obtain ⟨hnames, hitems⟩ := groups_of_validateGroups hv.1.2
  have hof : ∀ {d : ItemDef}, (g, d) ∈ struct.allItems → ∃ gd ∈ struct.groups, gd.name = g ∧ d ∈ gd.items := by
    intro d hd
    obtain ⟨gd, hgd, hm⟩ := List.mem_flatMap.mp hd
    obtain ⟨item, hitem, e⟩ := List.mem_map.mp hm
    obtain ⟨rfl, rfl⟩ := Prod.mk.inj e
    exact ⟨gd, hgd, rfl, hitem⟩
  obtain ⟨gd, hgd, hg, hm⟩ := hof hd
  obtain ⟨gd', hgd', hg', hm'⟩ := hof hd'
  obtain rfl := List.inj_on_of_nodup_map hnames hgd hgd' (hg.trans hg'.symm)
  exact List.inj_on_of_nodup_map (hitems gd hgd).1 hm hm' hk

theorem Sound.itemIndex (h : Sound struct.groups) (hd : (g, d) ∈ struct.allItems) :
    item? (itemIndex struct) g d.key = some d := by
  have hsome := (item_foldl_setItem (g := g) (k := d.key) (fun e : String × ItemDef => (e.1, e.2.key))
    (fun e => e.2) struct.allItems ∅).mpr (.inl ⟨_, hd, rfl⟩)
  obtain ⟨d', hd'⟩ := Option.ne_none_iff_exists'.mp hsome
  obtain ⟨hm, hk⟩ := mem_of_itemIndex hd'
  exact h.unique hd hm hk.symm ▸ hd'

theorem Sound.sharedItems (h : Sound struct.groups) (hd : (g, d) ∈ struct.allItems) (hs : d.shared = true) :
    item? (sharedItems struct) g d.key = some d.ty := by
  have hsome := (item_foldl_setItem (g := g) (k := d.key) (fun e : String × ItemDef => (e.1, e.2.key))
    (fun e => e.2.ty) (struct.allItems.filter fun e => e.2.shared) ∅).mpr
    (.inl ⟨_, List.mem_filter.mpr ⟨hd, hs⟩, rfl⟩)
  obtain ⟨ty, hty⟩ := Option.ne_none_iff_exists'.mp hsome
  obtain ⟨d', hm, hk, -, rfl⟩ := mem_of_sharedItems hty
  exact h.unique hd hm hk.symm ▸ hty

end Defing
