import DocShell.Proofs.ByteOrder
import DocShell.Proofs.PathSegments
import DocShell.Store

namespace DocShell.Store

open DocShell.Text.Bytes

def HasObject (members : List (String × Json)) (name : String) (inner : List (String × Json)) :
    Prop :=
  members.lookup name = some (.object inner)

/-- From some collections, a path leads to a document: a collection and an id in it for each
level, and an entry for collections in each document but the last. -/
inductive LeadsTo : List (String × Json) → List String → List (String × Json) → Prop where
  | document {collections collection document : List (String × Json)} {name id : String} :
      HasObject collections name collection → HasObject collection id document →
      LeadsTo collections [name, id] document
  | deeper {collections collection document children target : List (String × Json)}
      {name id : String} {path : List String} :
      HasObject collections name collection → HasObject collection id document →
      HasObject document childrenKey children → LeadsTo children path target →
      LeadsTo collections (name :: id :: path) target

/-- The collections of a document: its entry for them, if that is an object, or none without an
entry. -/
inductive ChildrenOf (document : List (String × Json)) : List (String × Json) → Prop where
  | entry {children : List (String × Json)} :
      HasObject document childrenKey children → ChildrenOf document children
  | absent : document.lookup childrenKey = none → ChildrenOf document []

/-- The collections at a path: those of the root if it is empty, and else those of a document. -/
inductive CollectionsAt (store : Store) : String → List (String × Json) → Prop where
  | root : CollectionsAt store "" store.root
  | document {path : String} {document collections : List (String × Json)} :
      LeadsTo store.root (Path.segments path) document → ChildrenOf document collections →
      CollectionsAt store path collections

/-- A path that goes on behind a document without an entry for collections. -/
def PassesLeaf (collections : List (String × Json)) (path : List String) : Prop :=
  ∃ front back document, path = front ++ back ∧ back ≠ [] ∧
    LeadsTo collections front document ∧ document.lookup childrenKey = none

/-- A path with as many segments as a document's that goes on behind a document without an entry
for collections. -/
def GoesPastLeaf (store : Store) (path : String) : Prop :=
  (Path.segments path).length % 2 = 0 ∧ PassesLeaf store.root (Path.segments path)

structure IsListing (collections : List (String × Json)) (names : List String) : Prop where
  perm : names.Perm (collections.map Prod.fst)
  sorted : names.Pairwise fun a b => utf8 a ≤ utf8 b

variable {collections : List (String × Json)}

theorem members?_eq_some_iff {value : Json} {members : List (String × Json)} :
    members? value = some members ↔ value = .object members := by
  cases value <;> simp [members?]

theorem document?_eq_some_iff {name id : String} {document : List (String × Json)} :
    document? collections name id = some document ↔
      ∃ collection, HasObject collections name collection ∧ HasObject collection id document := by
  simp only [document?, HasObject, bind, Option.bind_eq_some_iff, members?_eq_some_iff]
  constructor
  · rintro ⟨_, hname, collection, rfl, _, hid, rfl⟩
    exact ⟨collection, hname, hid⟩
  · rintro ⟨collection, hname, hid⟩
    exact ⟨_, hname, collection, rfl, _, hid, rfl⟩

theorem leadsTo_cons_iff {name id : String} {path : List String} {target : List (String × Json)} :
    LeadsTo collections (name :: id :: path) target ↔
      ∃ document, document? collections name id = some document ∧
        (path = [] ∧ target = document ∨
          ∃ children, HasObject document childrenKey children ∧ LeadsTo children path target) := by
  constructor
  · intro h
    cases h with
    | document hname hid =>
        exact ⟨target, document?_eq_some_iff.mpr ⟨_, hname, hid⟩, .inl ⟨rfl, rfl⟩⟩
    | deeper hname hid hentry hpath =>
        exact ⟨_, document?_eq_some_iff.mpr ⟨_, hname, hid⟩, .inr ⟨_, hentry, hpath⟩⟩
  · rintro ⟨document, hdocument, hrest⟩
    obtain ⟨collection, hname, hid⟩ := document?_eq_some_iff.mp hdocument
    rcases hrest with ⟨rfl, rfl⟩ | ⟨children, hentry, hpath⟩
    · exact .document hname hid
    · exact .deeper hname hid hentry hpath

theorem not_leadsTo_nil {target : List (String × Json)} : ¬LeadsTo collections [] target := by
  rintro ⟨⟩

theorem LeadsTo.even {path : List String} {target : List (String × Json)}
    (h : LeadsTo collections path target) : path.length % 2 = 0 := by
  induction h with
  | document => simp
  | deeper _ _ _ _ ih =>
      simp only [List.length_cons]
      omega

theorem passesLeaf_cons_iff {name id : String} {path : List String} :
    PassesLeaf collections (name :: id :: path) ↔
      ∃ document, document? collections name id = some document ∧
        (path ≠ [] ∧ document.lookup childrenKey = none ∨
          ∃ children, HasObject document childrenKey children ∧ PassesLeaf children path) := by
  constructor
  · rintro ⟨front, back, leaf, hsplit, hback, hfront, hleaf⟩
    -- The path to the leaf has at least the two segments that the whole path begins with.
    rcases front with _ | ⟨name', _ | ⟨id', front⟩⟩
    · exact absurd hfront not_leadsTo_nil
    · exact absurd hfront.even (by simp)
    · simp only [List.cons_append, List.cons.injEq] at hsplit
      obtain ⟨rfl, rfl, rfl⟩ := hsplit
      obtain ⟨document, hdocument, ⟨rfl, rfl⟩ | ⟨children, hentry, hpath⟩⟩ :=
        leadsTo_cons_iff.mp hfront
      · exact ⟨leaf, hdocument, .inl ⟨hback, hleaf⟩⟩
      · exact ⟨document, hdocument, .inr ⟨children, hentry, front, back, leaf, rfl, hback, hpath,
          hleaf⟩⟩
  · rintro ⟨document, hdocument, ⟨hpath, hleaf⟩ | ⟨children, hentry, hpasses⟩⟩
    · exact ⟨[name, id], path, document, rfl, hpath,
        leadsTo_cons_iff.mpr ⟨document, hdocument, .inl ⟨rfl, rfl⟩⟩, hleaf⟩
    · obtain ⟨front, back, leaf, rfl, hback, hfront, hleaf⟩ := hpasses
      exact ⟨name :: id :: front, back, leaf, rfl, hback,
        leadsTo_cons_iff.mpr ⟨document, hdocument, .inr ⟨children, hentry, hfront⟩⟩, hleaf⟩

theorem not_passesLeaf_of_length {path : List String} (h : path.length ≤ 1) :
    ¬PassesLeaf collections path := by
  rintro ⟨front, back, leaf, rfl, hback, hfront, -⟩
  have heven := hfront.even
  have hne : front ≠ [] := by
    rintro rfl
    exact not_leadsTo_nil hfront
  have hfrontLength := List.length_pos_iff.mpr hne
  rw [List.length_append] at h
  omega

theorem childrenOf_iff {document found : List (String × Json)} :
    ChildrenOf document found ↔
      HasObject document childrenKey found ∨ document.lookup childrenKey = none ∧ found = [] := by
  constructor
  · rintro (hentry | habsent)
    · exact .inl hentry
    · exact .inr ⟨habsent, rfl⟩
  · rintro (hentry | ⟨habsent, rfl⟩)
    · exact .entry hentry
    · exact .absent habsent

theorem LeadsTo.not_passesLeaf {path : List String} {target : List (String × Json)}
    (h : LeadsTo collections path target) : ¬PassesLeaf collections path := by
  induction h with
  | @document _ _ document _ _ hname hid =>
      intro hpasses
      obtain ⟨document, -, ⟨hpath, -⟩ | ⟨children, -, hpasses⟩⟩ := passesLeaf_cons_iff.mp hpasses
      · exact hpath rfl
      · exact not_passesLeaf_of_length (by simp) hpasses
  | @deeper _ _ document _ _ _ _ _ hname hid hentry _ ih =>
      intro hpasses
      have hdocument := document?_eq_some_iff.mpr ⟨_, hname, hid⟩
      obtain ⟨other, hother, hrest⟩ := passesLeaf_cons_iff.mp hpasses
      obtain rfl : document = other := Option.some.inj (hdocument.symm.trans hother)
      rcases hrest with ⟨-, habsent⟩ | ⟨children, hchildren, hpasses⟩
      · exact absurd (hentry.symm.trans habsent) (by simp)
      · cases hentry.symm.trans hchildren
        exact ih hpasses

/-- One level of the walk: the document, and what its entry for collections says of the rest. -/
theorem descend?_cons_eq_some_iff {name id : String} {path : List String}
    {found : List (String × Json)} :
    descend? collections (name :: id :: path) = some found ↔
      ∃ document, document? collections name id = some document ∧
        ((∃ children, HasObject document childrenKey children ∧
          descend? children path = some found) ∨
            document.lookup childrenKey = none ∧ found = []) := by
  simp only [descend?, bind, Option.bind_eq_some_iff]
  refine exists_congr fun document => and_congr_right fun _ => ?_
  cases hentry : document.lookup childrenKey with
  | none => simp [HasObject, hentry, eq_comm]
  | some value => simp [HasObject, hentry, Option.bind_eq_some_iff, members?_eq_some_iff]

/-- The walk along a path ends at its document, or at the first one without an entry. -/
theorem descend?_eq_some_iff {path : List String} {found : List (String × Json)} :
    descend? collections path = some found ↔
      path = [] ∧ found = collections ∨
        (∃ document, LeadsTo collections path document ∧ ChildrenOf document found) ∨
          PassesLeaf collections path ∧ found = [] := by
  fun_induction descend? collections path with
  | case1 collections =>
      have hnot : ¬PassesLeaf collections [] := not_passesLeaf_of_length (by simp)
      simp [not_leadsTo_nil, hnot, eq_comm]
  | case2 collections name =>
      have hnot : ¬PassesLeaf collections [name] := not_passesLeaf_of_length (by simp)
      have hodd : ∀ document, ¬LeadsTo collections [name] document := by
        intro document h
        simpa using h.even
      simp [hodd, hnot]
  | case3 collections name id rest ih =>
      refine Iff.trans descend?_cons_eq_some_iff ?_
      simp only [reduceCtorEq, false_and, false_or, leadsTo_cons_iff, passesLeaf_cons_iff]
      constructor
      · rintro ⟨document, hdocument, ⟨children, hentry, hwalk⟩ | ⟨habsent, rfl⟩⟩
        · rcases (ih children).mp hwalk with ⟨rfl, rfl⟩ | ⟨target, hleads, htarget⟩ | ⟨hpasses, rfl⟩
          · exact .inl ⟨document, ⟨document, hdocument, .inl ⟨rfl, rfl⟩⟩, .entry hentry⟩
          · exact .inl ⟨target, ⟨document, hdocument, .inr ⟨children, hentry, hleads⟩⟩, htarget⟩
          · exact .inr ⟨⟨document, hdocument, .inr ⟨children, hentry, hpasses⟩⟩, rfl⟩
        · by_cases hrest : rest = []
          · exact .inl ⟨document, ⟨document, hdocument, .inl ⟨hrest, rfl⟩⟩, .absent habsent⟩
          · exact .inr ⟨⟨document, hdocument, .inl ⟨hrest, habsent⟩⟩, rfl⟩
      · rintro (⟨target, ⟨document, hdocument, hrest⟩, htarget⟩ |
          ⟨⟨document, hdocument, hrest⟩, rfl⟩)
        · refine ⟨document, hdocument, ?_⟩
          rcases hrest with ⟨rfl, rfl⟩ | ⟨children, hentry, hleads⟩
          · rcases childrenOf_iff.mp htarget with hentry | habsent
            · exact .inl ⟨found, hentry, (ih found).mpr (.inl ⟨rfl, rfl⟩)⟩
            · exact .inr habsent
          · exact .inl ⟨children, hentry, (ih children).mpr (.inr (.inl ⟨target, hleads, htarget⟩))⟩
        · refine ⟨document, hdocument, ?_⟩
          rcases hrest with ⟨-, habsent⟩ | ⟨children, hentry, hpasses⟩
          · exact .inr ⟨habsent, rfl⟩
          · exact .inl ⟨children, hentry, (ih children).mpr (.inr (.inr ⟨hpasses, rfl⟩))⟩

section Path

variable {store : Store} {path : String}

theorem not_goesPastLeaf_empty : ¬store.GoesPastLeaf "" := by
  rintro ⟨-, hpasses⟩
  rw [Path.segments_empty] at hpasses
  exact not_passesLeaf_of_length (by simp) hpasses

theorem CollectionsAt.not_goesPastLeaf {collections : List (String × Json)}
    (h : store.CollectionsAt path collections) : ¬store.GoesPastLeaf path := by
  cases h with
  | root => exact not_goesPastLeaf_empty
  | document hleads => exact fun hpast => hleads.not_passesLeaf hpast.2

theorem collectionsAt_iff {collections : List (String × Json)} :
    store.CollectionsAt path collections ↔
      path = "" ∧ collections = store.root ∨
        ∃ document, LeadsTo store.root (Path.segments path) document ∧
          ChildrenOf document collections := by
  constructor
  · rintro (_ | ⟨hleads, hchildren⟩)
    · exact .inl ⟨rfl, rfl⟩
    · exact .inr ⟨_, hleads, hchildren⟩
  · rintro (⟨rfl, rfl⟩ | ⟨document, hleads, hchildren⟩)
    · exact .root
    · exact .document hleads hchildren

theorem collections?_eq_some_iff {found : List (String × Json)} :
    store.collections? path = some found ↔
      store.CollectionsAt path found ∨ store.GoesPastLeaf path ∧ found = [] := by
  rw [collectionsAt_iff, collections?]
  split
  · rename_i hempty
    subst hempty
    have hnone : ∀ document, ¬LeadsTo store.root (Path.segments "") document := fun document h => by
      simpa [Path.segments_empty] using h.even
    simp [hnone, not_goesPastLeaf_empty, eq_comm]
  · rename_i hpath
    split
    · rename_i hdocument
      have heven := Path.isDocument_iff.mp hdocument
      simp [descend?_eq_some_iff, Path.segments_ne_nil, hpath, GoesPastLeaf, heven]
    · rename_i hodd
      have hnone : ∀ document, ¬LeadsTo store.root (Path.segments path) document :=
        fun document h => hodd (Path.isDocument_iff.mpr h.even)
      have hshort : ¬store.GoesPastLeaf path := fun h => hodd (Path.isDocument_iff.mpr h.1)
      simp [hpath, hnone, hshort]

end Path

theorem isListing_iff {names : List String} :
    IsListing collections names ↔
      names = (collections.map Prod.fst).mergeSort fun a b => a ≤ b := by
  have hsorted : ((collections.map Prod.fst).mergeSort fun a b => a ≤ b).Pairwise fun a b =>
      utf8 a ≤ utf8 b := by
    refine (List.pairwise_mergeSort ?_ ?_ _).imp fun h => utf8_le_utf8_iff.mpr (of_decide_eq_true h)
    · intro a b c hab hbc
      simp only [decide_eq_true_eq] at hab hbc ⊢
      exact String.le_trans hab hbc
    · intro a b
      simpa using String.le_total a b
  constructor
  · rintro ⟨hperm, hnames⟩
    refine List.Perm.eq_of_pairwise (fun a b _ _ hab hba => ?_) hnames hsorted
      (hperm.trans (List.mergeSort_perm _ _).symm)
    exact String.le_antisymm (utf8_le_utf8_iff.mp hab) (utf8_le_utf8_iff.mp hba)
  · rintro rfl
    exact ⟨List.mergeSort_perm _ _, hsorted⟩

theorem list_eq_ok_iff {store : Store} {path : String} {names : List String} :
    store.list path = .ok names ↔
      ∃ found, store.collections? (Path.normalize path) = some found ∧ IsListing found names := by
  simp only [list]
  cases store.collections? (Path.normalize path) with
  | none => simp
  | some found => simp [isListing_iff, eq_comm]

theorem list_eq_error_iff {store : Store} {path : String} {cause : StoreError} :
    store.list path = .error cause ↔
      cause = .notFound (Path.normalize path) ∧
        store.collections? (Path.normalize path) = none := by
  simp only [list]
  cases store.collections? (Path.normalize path) with
  | none => simp [eq_comm]
  | some found => simp

theorem isListing_nil_iff {names : List String} : IsListing [] names ↔ names = [] := by
  rw [isListing_iff, List.map_nil, List.mergeSort_nil]

/-- The names of the collections at a path are listed, and no other path is found, save those that
go on behind a document without an entry for collections: they lead nowhere, and their list is
empty. -/
theorem list_eq_iff (store : Store) (path : String) :
    (∀ names, store.list path = .ok names ↔
      (∃ collections, store.CollectionsAt (Path.normalize path) collections ∧
        IsListing collections names) ∨
          store.GoesPastLeaf (Path.normalize path) ∧ names = []) ∧
      (∀ cause, store.list path = .error cause ↔
        cause = .notFound (Path.normalize path) ∧
          (¬∃ collections, store.CollectionsAt (Path.normalize path) collections) ∧
            ¬store.GoesPastLeaf (Path.normalize path)) ∧
        ¬(store.GoesPastLeaf (Path.normalize path) ∧
          ∃ collections, store.CollectionsAt (Path.normalize path) collections) := by
  refine ⟨fun names => ?_, fun cause => ?_, ?_⟩
  · rw [list_eq_ok_iff]
    constructor
    · rintro ⟨found, hfound, hnames⟩
      rcases collections?_eq_some_iff.mp hfound with hat | ⟨hpast, rfl⟩
      · exact .inl ⟨found, hat, hnames⟩
      · exact .inr ⟨hpast, isListing_nil_iff.mp hnames⟩
    · rintro (⟨collections, hat, hnames⟩ | ⟨hpast, rfl⟩)
      · exact ⟨collections, collections?_eq_some_iff.mpr (.inl hat), hnames⟩
      · exact ⟨[], collections?_eq_some_iff.mpr (.inr ⟨hpast, rfl⟩), isListing_nil_iff.mpr rfl⟩
  · rw [list_eq_error_iff, Option.eq_none_iff_forall_ne_some]
    refine and_congr_right fun _ => ?_
    constructor
    · intro hnone
      constructor
      · rintro ⟨collections, hat⟩
        exact hnone collections (collections?_eq_some_iff.mpr (.inl hat))
      · intro hpast
        exact hnone [] (collections?_eq_some_iff.mpr (.inr ⟨hpast, rfl⟩))
    · rintro ⟨hat, hpast⟩ found hfound
      rcases collections?_eq_some_iff.mp hfound with hfound | ⟨hfound, -⟩
      · exact hat ⟨found, hfound⟩
      · exact hpast hfound
  · rintro ⟨hpast, collections, hat⟩
    exact hat.not_goesPastLeaf hpast

/-- There is no document at the path, and yet it is found, below one without an entry. -/
theorem list_past_leaf :
    (⟨[("users", .object [("1", .object [])])]⟩ : Store).list "users/1/posts/9" = .ok [] ∧
      ¬∃ collections, CollectionsAt ⟨[("users", .object [("1", .object [])])]⟩
        (Path.normalize "users/1/posts/9") collections := by
  have hpath : Path.normalize "users/1/posts/9" = "users/1/posts/9" := by decide +kernel
  have hsegments : Path.segments "users/1/posts/9" = ["users", "1", "posts", "9"] := by
    decide +kernel
  have hpast : GoesPastLeaf ⟨[("users", .object [("1", .object [])])]⟩ "users/1/posts/9" := by
    rw [GoesPastLeaf, hsegments]
    exact ⟨by simp, ["users", "1"], ["posts", "9"], [], rfl, by simp, .document rfl rfl, rfl⟩
  rw [hpath]
  refine ⟨list_eq_ok_iff.mpr ⟨[], ?_, isListing_nil_iff.mpr rfl⟩, ?_⟩
  · rw [hpath]
    exact collections?_eq_some_iff.mpr (.inr ⟨hpast, rfl⟩)
  · rintro ⟨collections, hat⟩
    exact hat.not_goesPastLeaf hpast

end DocShell.Store
