import DocShell.Json.Value

namespace DocShell.Json

mutual

/-- Equality up to the order of the members of objects. -/
inductive Same : Json → Json → Prop where
  | refl {value} : Same value value
  | array {items items'} : SameItems items items' → Same (array items) (array items')
  | object {members middle members'} : SameMembers members middle → middle.Perm members' →
      Same (object members) (object members')

inductive SameItems : List Json → List Json → Prop where
  | nil : SameItems [] []
  | cons {item item' items items'} : Same item item' → SameItems items items' →
      SameItems (item :: items) (item' :: items')

inductive SameMembers : List (String × Json) → List (String × Json) → Prop where
  | nil : SameMembers [] []
  | cons {name value value' members members'} : Same value value' →
      SameMembers members members' →
      SameMembers ((name, value) :: members) ((name, value') :: members')

end

/-- A value that is read as it was printed: it has no more than `levels` brackets around another,
no object has two members of one name, and all numbers are whole and fit a word. -/
inductive Readable : Nat → Json → Prop where
  | null {levels} : Readable levels null
  | bool {levels value} : Readable levels (bool value)
  | int {levels value} : -0x8000000000000000 ≤ value → value < 0x10000000000000000 →
      Readable levels (int value)
  | string {levels value} : Readable levels (string value)
  | array {levels items} : (∀ item ∈ items, Readable levels item) →
      Readable (levels + 1) (array items)
  | object {levels members} : (members.map Prod.fst).Nodup →
      (∀ member ∈ members, Readable levels member.2) → Readable (levels + 1) (object members)

def ordered (members : List (String × Json)) : List (String × Json) :=
  members.foldl (fun sorted member => insertMember member.1 member.2 sorted) []

theorem ofMembers_eq (members : List (String × Json)) :
    ofMembers members = object (ordered members) := rfl

mutual

/-- The value with the members of all objects in the order of their names. -/
def sorted : Json → Json
  | array items => array (sortedItems items)
  | object members => ofMembers (sortedMembers members)
  | value => value

def sortedItems : List Json → List Json
  | [] => []
  | item :: items => sorted item :: sortedItems items

def sortedMembers : List (String × Json) → List (String × Json)
  | [] => []
  | (name, value) :: members => (name, sorted value) :: sortedMembers members

end

theorem sortedItems_eq (items : List Json) : sortedItems items = items.map sorted := by
  induction items with
  | nil => rfl
  | cons item items ih => rw [sortedItems, ih, List.map_cons]

theorem sortedMembers_eq (members : List (String × Json)) :
    sortedMembers members = members.map fun member => (member.1, member.2.sorted) := by
  induction members with
  | nil => rfl
  | cons member members ih => rw [sortedMembers, ih, List.map_cons]

theorem names_sortedMembers (members : List (String × Json)) :
    (sortedMembers members).map Prod.fst = members.map Prod.fst := by
  rw [sortedMembers_eq, List.map_map]
  rfl

theorem sortedMembers_cons_eq_iff {name : String} {value value' : Json}
    {members members' : List (String × Json)} :
    sortedMembers ((name, value) :: members) = sortedMembers ((name, value') :: members') ↔
      value.sorted = value'.sorted ∧ sortedMembers members = sortedMembers members' := by
  simp [sortedMembers]

section Order

variable {name : String} {value : Json} {members : List (String × Json)}

theorem insertMember_perm (h : name ∉ members.map Prod.fst) :
    (insertMember name value members).Perm ((name, value) :: members) := by
  induction members with
  | nil => exact .refl _
  | cons member members ih =>
      simp only [List.map_cons, List.mem_cons, not_or] at h
      rw [insertMember]
      split
      · exact .refl _
      · rw [if_neg h.1]
        exact ((ih h.2).cons _).trans (.swap _ _ _)

theorem mem_insertMember {member : String × Json} (h : member ∈ insertMember name value members) :
    member = (name, value) ∨ member ∈ members := by
  induction members with
  | nil => exact .inl (List.mem_singleton.mp h)
  | cons other members ih =>
      rw [insertMember] at h
      split at h
      · exact List.mem_cons.mp h
      · split at h
        · exact (List.mem_cons.mp h).imp_right (List.mem_cons_of_mem _)
        · rcases List.mem_cons.mp h with rfl | h
          · exact .inr (List.mem_cons_self ..)
          · exact (ih h).imp_right (List.mem_cons_of_mem _)

/-- Members in the order of their names, no two with one name. -/
def IsOrdered (members : List (String × Json)) : Prop :=
  members.Pairwise fun member member' => member.1 < member'.1

theorem IsOrdered.insertMember (h : IsOrdered members) :
    IsOrdered (insertMember name value members) := by
  induction members with
  | nil => exact List.pairwise_singleton _ _
  | cons other members ih =>
      obtain ⟨hother, hmembers⟩ := List.pairwise_cons.mp h
      rw [Json.insertMember]
      split
      · rename_i hlt
        refine List.pairwise_cons.mpr ⟨fun member hmem => ?_, h⟩
        rcases List.mem_cons.mp hmem with rfl | hmem
        · exact hlt
        · exact String.lt_trans hlt (hother member hmem)
      · rename_i hnot
        split
        · rename_i hsame
          refine List.pairwise_cons.mpr ⟨fun member hmem => ?_, hmembers⟩
          rw [hsame]
          exact hother member hmem
        · rename_i hne
          have hlt : other.1 < name := by
            rcases String.le_total name other.1 with hle | hle
            · exact absurd (String.le_antisymm hle (String.not_lt.mp hnot)) hne
            · exact String.not_le.mp fun hge => hne (String.le_antisymm hge hle)
          refine List.pairwise_cons.mpr ⟨fun member hmem => ?_, ih hmembers⟩
          rcases mem_insertMember hmem with rfl | hmem
          · exact hlt
          · exact hother member hmem

end Order

theorem isOrdered_ordered (members : List (String × Json)) : IsOrdered (ordered members) := by
  have hfold : ∀ found : List (String × Json), IsOrdered found → IsOrdered
      (members.foldl (fun sorted member => insertMember member.1 member.2 sorted) found) := by
    induction members with
    | nil => exact fun found h => h
    | cons member members ih => exact fun found h => ih _ h.insertMember
  exact hfold [] .nil

theorem ordered_perm {members : List (String × Json)} (h : (members.map Prod.fst).Nodup) :
    (ordered members).Perm members := by
  have hfold : ∀ found : List (String × Json), ((found ++ members).map Prod.fst).Nodup →
      (members.foldl (fun sorted member => insertMember member.1 member.2 sorted) found).Perm
        (found ++ members) := by
    clear h
    induction members with
    | nil => exact fun found _ => by rw [List.append_nil]; exact .refl _
    | cons member members ih =>
        intro found hnodup
        have hmiddle : (found ++ member :: members).Perm (member :: (found ++ members)) :=
          List.perm_middle
        have hcons := (hmiddle.map Prod.fst).nodup_iff.mp hnodup
        rw [List.map_cons, List.nodup_cons] at hcons
        have hnew : member.1 ∉ found.map Prod.fst := fun hmem =>
          hcons.1 (by rw [List.map_append]; exact List.mem_append_left _ hmem)
        have hinsert : (insertMember member.1 member.2 found).Perm (member :: found) :=
          insertMember_perm hnew
        have hsame := (hinsert.append_right members).trans hmiddle.symm
        exact (ih _ ((hsame.map Prod.fst).nodup_iff.mpr hnodup)).trans hsame
  exact hfold [] h

theorem IsOrdered.nodup {members : List (String × Json)} (h : IsOrdered members) :
    (members.map Prod.fst).Nodup := by
  refine List.pairwise_map.mpr (h.imp fun hlt hsame => ?_)
  rw [hsame] at hlt
  exact String.lt_irrefl _ hlt

theorem IsOrdered.ordered_eq {members : List (String × Json)} (h : IsOrdered members) :
    ordered members = members :=
  (ordered_perm h.nodup).eq_of_pairwise
    (fun _ _ _ _ hlt hgt => absurd hgt (String.lt_asymm hlt)) (isOrdered_ordered members) h

/-- Members with the same different names in the same order are the same, if they are the same in
some order. -/
theorem eq_of_perm {members members' : List (String × Json)} (h : members.Perm members')
    (hnames : members.map Prod.fst = members'.map Prod.fst)
    (hnodup : (members.map Prod.fst).Nodup) : members = members' := by
  induction members generalizing members' with
  | nil => exact (List.nil_perm.mp h).symm
  | cons member members ih =>
      obtain ⟨name, value⟩ := member
      obtain ⟨⟨name', value'⟩, rest, rfl, rfl, hrest⟩ := List.map_eq_cons_iff.mp hnames.symm
      rw [List.map_cons, List.nodup_cons] at hnodup
      have hvalue : value = value' := by
        rcases List.mem_cons.mp (h.mem_iff.mp (List.mem_cons_self ..)) with hsame | hmem
        · exact (Prod.mk.inj hsame).2
        · rw [← hrest] at hnodup
          exact absurd (List.mem_map_of_mem hmem) hnodup.1
      subst hvalue
      rw [ih h.cons_inv hrest.symm hnodup.2]

section Sorted

variable {members members' : List (String × Json)} (hnodup : (members.map Prod.fst).Nodup)

include hnodup

theorem ordered_sortedMembers_perm :
    (ordered (sortedMembers members)).Perm (sortedMembers members) := by
  refine ordered_perm ?_
  rw [names_sortedMembers]
  exact hnodup

theorem mem_ordered_sortedMembers {member : String × Json} :
    member ∈ ordered (sortedMembers members) ↔
      ∃ plain ∈ members, (plain.1, plain.2.sorted) = member := by
  rw [(ordered_sortedMembers_perm hnodup).mem_iff, sortedMembers_eq, List.mem_map]

/-- Objects with the same form have the same members in some order. -/
theorem perm_of_sorted_eq (hnodup' : (members'.map Prod.fst).Nodup)
    (h : (object members).sorted = (object members').sorted) :
    (sortedMembers members).Perm (sortedMembers members') := by
  rw [sorted, sorted, ofMembers_eq, ofMembers_eq, Json.object.injEq] at h
  have hperm := (ordered_sortedMembers_perm hnodup).symm
  rw [h] at hperm
  exact hperm.trans (ordered_sortedMembers_perm hnodup')

end Sorted

theorem sortedMembers_eq_of_sorted_eq {members members' : List (String × Json)}
    (h : (object members).sorted = (object members').sorted)
    (hnames : members.map Prod.fst = members'.map Prod.fst)
    (hnodup : (members.map Prod.fst).Nodup) : sortedMembers members = sortedMembers members' := by
  refine eq_of_perm (perm_of_sorted_eq hnodup (hnames ▸ hnodup) h) ?_ ?_
  · rw [names_sortedMembers, names_sortedMembers, hnames]
  · rw [names_sortedMembers]
    exact hnodup

theorem sameItems_sorted {items : List Json} (h : ∀ item ∈ items, Same item item.sorted) :
    SameItems items (sortedItems items) := by
  induction items with
  | nil => exact .nil
  | cons item items ih =>
      obtain ⟨hitem, hitems⟩ := List.forall_mem_cons.mp h
      exact .cons hitem (ih hitems)

theorem sameMembers_sorted {members : List (String × Json)}
    (h : ∀ member ∈ members, Same member.2 member.2.sorted) :
    SameMembers members (sortedMembers members) := by
  induction members with
  | nil => exact .nil
  | cons member members ih =>
      obtain ⟨hmember, hmembers⟩ := List.forall_mem_cons.mp h
      exact .cons hmember (ih hmembers)

section Readable

variable {levels : Nat} {value : Json}

theorem Readable.sorted (h : Readable levels value) : Readable levels value.sorted := by
  induction h with
  | null => exact .null
  | bool => exact .bool
  | int hlow hhigh => exact .int hlow hhigh
  | string => exact .string
  | array _ ih =>
      rw [Json.sorted, sortedItems_eq]
      exact .array (List.forall_mem_map.mpr ih)
  | object hnodup _ ih =>
      rw [Json.sorted, ofMembers_eq]
      refine .object (isOrdered_ordered _).nodup fun member hmem => ?_
      obtain ⟨plain, hplain, rfl⟩ := (mem_ordered_sortedMembers hnodup).mp hmem
      exact ih plain hplain

theorem Readable.sorted_sorted (h : Readable levels value) :
    value.sorted.sorted = value.sorted := by
  induction h with
  | null | bool | int | string => rfl
  | array _ ih =>
      rw [Json.sorted, Json.sorted, sortedItems_eq, sortedItems_eq, List.map_map]
      exact congrArg Json.array (List.map_congr_left ih)
  | @object levels members hnodup _ ih =>
      rw [Json.sorted, ofMembers_eq, Json.sorted, ofMembers_eq]
      have hsame : sortedMembers (ordered (sortedMembers members)) =
          ordered (sortedMembers members) := by
        rw [sortedMembers_eq]
        refine (List.map_congr_left fun member hmem => ?_).trans (List.map_id _)
        obtain ⟨plain, hplain, rfl⟩ := (mem_ordered_sortedMembers hnodup).mp hmem
        rw [ih plain hplain]
        rfl
      rw [hsame, (isOrdered_ordered _).ordered_eq]

theorem Readable.same_sorted (h : Readable levels value) : Same value value.sorted := by
  induction h with
  | null | bool | int | string => exact .refl
  | array _ ih => exact .array (sameItems_sorted ih)
  | object hnodup _ ih =>
      exact .object (sameMembers_sorted ih) (ordered_sortedMembers_perm hnodup).symm

end Readable

end DocShell.Json
