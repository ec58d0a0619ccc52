import DocShell.Proofs.PathLine
import DocShell.Proofs.Settling
import DocShell.Shell.Session

namespace DocShell.Query

open DocShell.Text.Bytes

theorem IsField.append_slash {word : String} (h : IsField word) : IsField (word ++ "/") := by
  have htext : (word ++ "/").toList = word.toList ++ ['/'] := by simp
  constructor
  · have hbegins := h.begins
    rw [htext]
    generalize word.toList = cs at hbegins
    rcases cs with _ | ⟨c, _ | ⟨d, cs⟩⟩
    · cases hbegins
    · simp only [beginsWord, Bool.and_eq_true] at hbegins
      simp [beginsWord, hbegins.1]
    · exact hbegins
  · rw [htext, List.forall_mem_append]
    exact ⟨h.chars, List.all_eq_true.mp (by decide)⟩
  · rw [htext]
    exact ofWord?_of_slash_mem (by simp)

end DocShell.Query

namespace DocShell.Path

theorem normalize_append_slash {path : String} (h : path ≠ "") :
    normalize (path ++ "/") = normalize path ++ "/" := by
  have htext : (path ++ "/").toList = path.toList ++ ['/'] := by simp
  apply String.toList_injective
  rw [String.toList_append]
  rcases normalize_cases path with ⟨hhead, hpath⟩ | ⟨hhead, hpath⟩
  · rcases normalize_cases (path ++ "/") with ⟨-, hlonger⟩ | ⟨hne, -⟩
    · rw [htext, hpath, List.cons_append] at hlonger
      exact (List.cons.inj hlonger).2.symm
    · rw [htext, List.head?_append, hhead] at hne
      exact absurd rfl hne
  · rcases normalize_cases (path ++ "/") with ⟨hslash, -⟩ | ⟨-, hlonger⟩
    · cases hchars : path.toList with
      | nil => exact absurd (String.toList_injective hchars) h
      | cons c cs =>
          rw [htext, hchars] at hslash
          rw [hchars] at hhead
          exact absurd hslash hhead
    · rw [hpath, hlonger, String.toList_append]

end DocShell.Path

namespace DocShell.Completion

open DocShell.Query

theorem ofText_request (request : Request) {word : String} (h : IsField word) :
    Context.ofText (request.offer.text ++ " " ++ word).toList = .collection word := by
  have hcontext := ofText_of_path (.request (opens_offer request)) h
  rwa [Request.ofKind?_opener] at hcontext

/-- Behind a slash all of the path is the document, if it is the path of one. -/
theorem splitPartial?_append_slash {path : String} (h : path ≠ "") :
    splitPartial? (path ++ "/") =
      if Path.isDocument (Path.normalize path) then some (Path.normalize path, "") else none := by
  have hsegments := Path.segments_append (Path.normalize path) ""
  rw [Path.segments_empty, String.append_empty] at hsegments
  have hshape : Path.isDocument (Path.normalize path ++ "/") =
      !Path.isDocument (Path.normalize path) := by
    simp only [Path.isDocument, hsegments, List.length_append, List.length_singleton]
    rcases Nat.mod_two_eq_zero_or_one (Path.segments (Path.normalize path)).length with heven | hodd
    · simp [Nat.add_mod, heven]
    · simp [Nat.add_mod, hodd]
  have hparents : Path.ofSegments (Path.segments (Path.normalize path)).reverse.reverse =
      Path.normalize path := by
    rw [List.reverse_reverse, Path.ofSegments_segments]
  rw [splitPartial?, Path.normalize_append_slash h]
  simp only [hsegments, List.reverse_append, List.reverse_singleton, List.singleton_append, hshape,
    hparents]
  cases Path.isDocument (Path.normalize path) <;> rfl

section Cache

variable {Client : Type}

def Event.asked? : Event Client → Option String
  | .mark _ path => some path
  | _ => none

def askedPaths (events : List (Event Client)) : Finset String :=
  (events.filterMap Event.asked?).toFinset

theorem mem_askedPaths {events : List (Event Client)} {path : String} :
    path ∈ askedPaths events ↔ ∃ client, .mark client path ∈ events := by
  rw [askedPaths, List.mem_toFinset, List.mem_filterMap]
  constructor
  · rintro ⟨event, hmem, hevent⟩
    cases event with
    | mark client other =>
        cases hevent
        exact ⟨client, hmem⟩
    | _ => cases hevent
  · rintro ⟨client, hmem⟩
    exact ⟨_, hmem, rfl⟩

variable [DecidableEq Client]

theorem settles_askedPaths {store : Store} {events : List (Event Client)} {shared : Shared Client}
    (hrun : Run (.ofCache .empty) events shared) (hagrees : ∀ event ∈ events, event.Agrees store)
    (hidle : shared.cache.inFlight = []) : Settles store (askedPaths events) events shared :=
  ⟨hrun, hagrees, fun _ => mem_askedPaths, hidle⟩

/-- A path that was asked for is known as the store has it once nothing is in flight any more. -/
theorem get_of_run {store : Store} {front back : List (Event Client)} {before after : Shared Client}
    {client : Client} {path : String} (hbefore : Run (.ofCache .empty) front before)
    (hclient : before.asked client = none)
    (hafter : Run ⟨(before.cache.get path).2, before.asked⟩ back after)
    (hagrees : ∀ event ∈ front ++ back, event.Agrees store) (hidle : after.cache.inFlight = []) :
    (after.cache.get path).1 = (store.list path).toOption.getD [] := by
  have hrun := (hbefore.append (run_get before path hclient)).append hafter
  have hall : ∀ event ∈ front ++ [.mark client path, .read client path (before.cache.get path).1] ++
      back, event.Agrees store := by
    rw [List.forall_mem_append] at hagrees
    rw [List.forall_mem_append, List.forall_mem_append]
    exact ⟨⟨hagrees.1, by simp [Event.Agrees]⟩, hagrees.2⟩
  have hsettles := settles_askedPaths hrun hall hidle
  have hasked : path ∈ askedPaths (front ++ [.mark client path,
      .read client path (before.cache.get path).1] ++ back) :=
    mem_askedPaths.mpr ⟨client, by simp⟩
  rw [Cache.get, Cache.cached, Cache.known_request, hsettles.lookup_eq, if_pos hasked]

end Cache

end DocShell.Completion

namespace DocShell.Query

/-- What is typed before the name of a collection that is below a path. -/
def Request.below (request : Request) (path : String) : List Char :=
  (request.offer.text ++ " " ++ (path ++ "/")).toList

theorem tokens_listCollections {word : String} (h : IsField word) :
    tokens ("\\d " ++ word).toList =
      [⟨.command .listCollections, "\\d"⟩, ⟨.word, word⟩, Token.atEnd] := by
  have htext : ("\\d " ++ word).toList =
      Command.listCollections.name.toList ++ ' ' :: word.toList := by simp [Command.name]
  have hspells := spells_command .listCollections
  rw [tokens_eq, htext, tokensFrom_append_separator rfl hspells.terminated, hspells.tokens,
    List.isEmpty_cons, Bool.and_false, (h.spells false).tokens]
  rfl

theorem parse_listCollections {word : String} (h : IsField word)
    (hpath : Path.normalize word ≠ "") :
    parse ("\\d " ++ word) =
      if Path.isDocument (Path.normalize word) then .ok (.listCollections (Path.normalize word))
      else .error (.invalidPath .base word) := by
  have hbase : Rule.base [⟨.word, word⟩, Token.atEnd] =
      if Path.isDocument (Path.normalize word) then .ok (Path.normalize word) [Token.atEnd]
      else .error (.invalidPath .base word) [Token.atEnd] := by
    refine (Rule.bind_of_ok (Rule.optional_of_kind .word word _)).trans ?_
    simp only [hpath, false_or]
    split <;> rfl
  rw [parse_eq _ (tokens_listCollections h)]
  by_cases hdocument : Path.isDocument (Path.normalize word) = true
  · rw [if_pos hdocument] at hbase ⊢
    have hrun : Rule.operation ⟨.command .listCollections, "\\d"⟩ [⟨.word, word⟩, Token.atEnd] =
        .ok (.listCollections (Path.normalize word)) [Token.atEnd] := Rule.bind_of_ok hbase
    rw [hrun]
  · rw [if_neg hdocument] at hbase ⊢
    have hrun : Rule.operation ⟨.command .listCollections, "\\d"⟩ [⟨.word, word⟩, Token.atEnd] =
        .error (.invalidPath .base word) [Token.atEnd] := Rule.bind_of_error hbase
    rw [hrun]

end DocShell.Query

namespace DocShell.Completion

open DocShell.Query
open DocShell.Shell
open DocShell.Text.Ascii

theorem suggest_below (cache : Cache) (request : Request) {word : String} (h : IsField word)
    (hpath : Path.normalize word ≠ "") :
    cache.suggest (request.below word) =
      if Path.isDocument (Path.normalize word) then
        ((Names.matching "" (cache.get (Path.normalize word)).1).map fun name =>
            ⟨Path.normalize word ++ "/" ++ name, name⟩,
          (cache.get (Path.normalize word)).2)
      else ([], cache) := by
  have hne : word ≠ "" := by
    rintro rfl
    exact hpath rfl
  have hpartial := splitPartial?_append_slash hne
  rw [Cache.suggest, Request.below, ofText_request request h.append_slash]
  by_cases hdocument : Path.isDocument (Path.normalize word) = true
  · rw [if_pos hdocument] at hpartial ⊢
    simp only [Cache.namesFor, Context.base?, Context.suggestions, hpartial, Option.map_some,
      if_neg hpath]
  · rw [if_neg hdocument] at hpartial ⊢
    simp only [Cache.namesFor, Context.base?, Context.suggestions, hpartial, Option.map_none]

theorem matching_perm (names : List String) : (Names.matching "" names).Perm names := by
  have hall : (names.filter fun name => startsWith name.toList "".toList) = names :=
    List.filter_eq_self.mpr fun name _ => startsWith_nil name.toList
  rw [Names.matching, hall]
  exact List.mergeSort_perm names _

/-- What `\d` lists of the document with a path is offered behind that path, once the store has
answered, and where it lists nothing, for whatever reason, nothing is offered. -/
theorem suggest_perm_list {Client : Type} [DecidableEq Client] (session : Session) (store : Store)
    (request : Request) {word : String}
    (hword : tokens word.toList = [⟨.word, word⟩, Token.atEnd]) (hpath : Path.normalize word ≠ "")
    {front back : List (Event Client)} {before after : Shared Client} {client : Client}
    (hbefore : Run (.ofCache .empty) front before) (hclient : before.asked client = none)
    (hafter : Run ⟨(before.cache.suggest (request.below word)).2, before.asked⟩ back after)
    (hagrees : ∀ event ∈ front ++ back, event.Agrees store) (hidle : after.cache.inFlight = []) :
    match parse ("\\d " ++ word) with
    | .error _ => (after.cache.suggest (request.below word)).1 = []
    | .ok operation =>
        match (session.execute store operation).1 with
        | .error _ => (after.cache.suggest (request.below word)).1 = []
        | .ok (.names names) =>
            ((after.cache.suggest (request.below word)).1).Perm
              (names.map fun name => ⟨Path.normalize word ++ "/" ++ name, name⟩)
        | .ok _ => False := by
  have hfield := isField_of_tokens_eq hword
  rw [suggest_below _ _ hfield hpath] at hafter ⊢
  rw [parse_listCollections hfield hpath]
  by_cases hdocument : Path.isDocument (Path.normalize word) = true
  · rw [if_pos hdocument] at hafter ⊢
    rw [if_pos hdocument, get_of_run hbefore hclient hafter hagrees hidle]
    dsimp only [Session.execute]
    cases store.list (Path.normalize word) with
    | error cause => exact List.map_eq_nil_iff.mpr (matching_perm []).eq_nil
    | ok names => exact (matching_perm names).map _
  · rw [if_neg hdocument, if_neg hdocument]

/-- The command has the names in the order of their bytes, and the menu has the shorter ones
first. -/
theorem suggest_perm_list_document :
    ∃ after : Shared Nat,
      Run ⟨(Cache.empty.suggest (Request.query.below "/a/b")).2, fun _ => none⟩
        [.bring "a/b" ["cc", "d"]] after ∧
      (after.cache.suggest (Request.query.below "/a/b")).1.Perm
        [⟨"a/b/cc", "cc"⟩, ⟨"a/b/d", "d"⟩] := by
  let document : Json := .object [(Store.childrenKey, .object [("cc", .null), ("d", .null)])]
  let store : Store := ⟨[("a", .object [("b", document)])]⟩
  have hlist : store.list "a/b" = .ok ["cc", "d"] :=
    congrArg Except.ok (List.mergeSort_of_pairwise (by decide +kernel))
  have hparse : parse ("\\d " ++ "/a/b") = .ok (.listCollections "a/b") := by decide +kernel
  have hfly : "a/b" ∈ (Cache.empty.suggest (Request.query.below "/a/b")).2.inFlight := by
    decide +kernel
  have hafter : Run ⟨(Cache.empty.suggest (Request.query.below "/a/b")).2, fun _ : Nat => none⟩
      [.bring "a/b" ["cc", "d"]] _ := Run.nil.snoc (.bring "a/b" ["cc", "d"] hfly)
  have hagrees : ∀ event ∈ [] ++ [(.bring "a/b" ["cc", "d"] : Event Nat)], event.Agrees store := by
    simpa [Event.Agrees] using hlist
  have hclient : (Shared.ofCache .empty : Shared Nat).asked 0 = none := rfl
  have hperm := suggest_perm_list ⟨"", .json, false, false⟩ store .query (by decide +kernel)
    (by decide) .nil hclient hafter hagrees (by decide +kernel)
  simp only [hparse, Session.execute, hlist] at hperm
  exact ⟨_, hafter, hperm⟩

end DocShell.Completion
