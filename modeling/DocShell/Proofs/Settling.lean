import DocShell.Proofs.Fetching
import DocShell.Store
import Mathlib.Data.Finset.Insert

/-!
A shared cache whose names come from a store.
Main statement: once nothing is in flight, the cache holds what the store says of the paths that
were asked for, in whatever order, and however often, that was done.
-/

namespace DocShell.Completion

variable {Client : Type}

/-- An event is what a store says of its path. -/
def Event.Agrees (store : Store) : Event Client → Prop
  | .bring path names => store.list path = .ok names
  | .fail path => ∃ cause, store.list path = .error cause
  | _ => True

def Event.ofStore (store : Store) (path : String) : Event Client :=
  match store.list path with
  | .ok names => .bring path names
  | .error _ => .fail path

theorem Event.ofStore_agrees (store : Store) (path : String) :
    (Event.ofStore store path : Event Client).Agrees store := by
  unfold Event.ofStore
  split
  · rename_i names hlist
    exact hlist
  · rename_i cause hlist
    exact ⟨cause, hlist⟩

/-- The marks are those of the paths that were asked for, but for paths that the store refuses. -/
structure Faithful (store : Store) (events : List (Event Client)) (cache : Cache) : Prop where
  asked_of_marked : ∀ path ∈ cache.marked, ∃ client, .mark client path ∈ events
  marked_of_asked : ∀ client path names, .mark client path ∈ events →
    store.list path = .ok names → path ∈ cache.marked

variable [DecidableEq Client]

theorem Faithful.step {store : Store} {events : List (Event Client)} {event : Event Client}
    {shared next : Shared Client} (h : Faithful store events shared.cache)
    (hstep : Step shared event next) (hagrees : event.Agrees store) :
    Faithful store (events ++ [event]) next.cache := by
  have hbefore : ∀ path ∈ shared.cache.marked, ∃ client, .mark client path ∈ events ++ [event] := by
    intro path hpath
    obtain ⟨client, hmark⟩ := h.asked_of_marked path hpath
    exact ⟨client, List.mem_append_left _ hmark⟩
  cases hstep with
  | mark client path hasked =>
      constructor
      · intro other hother
        rcases Cache.mem_marked_request.mp hother with rfl | hother
        · exact ⟨client, by simp⟩
        · exact hbefore other hother
      · intro client' other names hmark hlist
        rw [Shared.cache_mark, Cache.mem_marked_request]
        rcases List.mem_append.mp hmark with hmark | hmark
        · exact .inr (h.marked_of_asked client' other names hmark hlist)
        · have heq : client' = client ∧ other = path := by simpa using hmark
          exact .inl heq.2
  | read =>
      refine ⟨hbefore, fun client other names hmark hlist => ?_⟩
      exact h.marked_of_asked client other names (by simpa using hmark) hlist
  | bring path names hfly =>
      refine ⟨hbefore, fun client other names hmark hlist => ?_⟩
      exact h.marked_of_asked client other names (by simpa using hmark) hlist
  | fail path hfly =>
      obtain ⟨cause, hcause⟩ := hagrees
      refine ⟨fun other hother => hbefore other (Cache.mem_marked_fail.mp hother).1, ?_⟩
      intro client other names hmark hlist
      refine Cache.mem_marked_fail.mpr ⟨?_, ?_⟩
      · exact h.marked_of_asked client other names (by simpa using hmark) hlist
      · rintro rfl
        rw [hcause] at hlist
        cases hlist

theorem Faithful.run {store : Store} {events : List (Event Client)} {shared : Shared Client}
    (hrun : Run (.ofCache .empty) events shared) (hagrees : ∀ event ∈ events, event.Agrees store) :
    Faithful store events shared.cache := by
  induction hrun with
  | nil => constructor <;> simp [Shared.ofCache, Cache.empty]
  | snoc _ hstep ih =>
      have hinit := ih fun event hmem => hagrees event (List.mem_append_left _ hmem)
      exact hinit.step hstep (hagrees _ (by simp))

theorem Step.ofStore (store : Store) {shared : Shared Client} {path : String}
    (h : path ∈ shared.cache.inFlight) :
    Step shared (.ofStore store path)
      { shared with
        cache := shared.cache.finish (fun path => (store.list path).toOption) path } := by
  cases hlist : store.list path with
  | ok names =>
      simp only [Event.ofStore, Cache.finish, hlist, Except.toOption]
      exact .bring path names h
  | error cause =>
      simp only [Event.ofStore, Cache.finish, hlist, Except.toOption]
      exact .fail path h

/-- From every state, the fetches that are in flight can end as the store says, and then none
is. -/
theorem run_settle (store : Store) (shared : Shared Client) :
    let ends := shared.cache.inFlight.map (.ofStore store)
    Run shared ends
        { shared with cache := shared.cache.settle fun path => (store.list path).toOption } ∧
      (∀ event ∈ ends, event.Agrees store) ∧
      (shared.cache.settle fun path => (store.list path).toOption).inFlight = [] := by
  unfold Cache.settle
  generalize hpaths : shared.cache.inFlight = paths
  induction paths generalizing shared with
  | nil => exact ⟨.nil, by simp, hpaths⟩
  | cons path paths ih =>
      have hfinish : (shared.cache.finish (fun path => (store.list path).toOption) path).inFlight =
          paths := by
        have herase : (path :: paths).erase path = paths := List.erase_cons_head ..
        rw [← herase, ← hpaths]
        unfold Cache.finish
        split <;> rfl
      obtain ⟨hrun, hagrees, hidle⟩ := ih ⟨_, shared.asked⟩ hfinish
      have hstep := Step.ofStore store (hpaths ▸ List.mem_cons_self ..)
      exact ⟨(Run.nil.snoc hstep).append hrun,
        List.forall_mem_cons.mpr ⟨Event.ofStore_agrees store path, hagrees⟩, hidle⟩

/-- A run over a store that asked for exactly some paths and has left nothing in flight. -/
structure Settles (store : Store) (paths : Finset String) (events : List (Event Client))
    (shared : Shared Client) : Prop where
  run : Run (.ofCache .empty) events shared
  agrees : ∀ event ∈ events, event.Agrees store
  mem_iff : ∀ path, path ∈ paths ↔ ∃ client, .mark client path ∈ events
  idle : shared.cache.inFlight = []

namespace Settles

variable {store : Store} {paths : Finset String} {events : List (Event Client)}
  {shared : Shared Client}

theorem list_of_lookup (h : Settles store paths events shared) {path : String}
    {names : List String} (hknown : shared.cache.known.lookup path = some names) :
    store.list path = .ok names := by
  rw [((recorded_ofEntries []).run h.run).lookup_eq] at hknown
  obtain ⟨event, hmem, hevent⟩ := List.exists_of_findSome?_eq_some hknown
  cases event with
  | bring other names' =>
      obtain ⟨rfl, rfl⟩ : other = path ∧ names' = names := by simpa [Event.names?] using hevent
      exact h.agrees _ hmem
  | mark => cases hevent
  | read => cases hevent
  | fail => cases hevent

theorem mem_marked_iff_knows (h : Settles store paths events shared) {path : String} :
    path ∈ shared.cache.marked ↔ shared.cache.Knows path :=
  ((recorded_ofEntries []).run h.run).consistent.mem_marked_iff_of_idle h.idle

theorem mem_marked_iff (h : Settles store paths events shared) (path : String) :
    path ∈ shared.cache.marked ↔ path ∈ paths ∧ ∃ names, store.list path = .ok names := by
  have hfaithful := Faithful.run h.run h.agrees
  constructor
  · intro hmarked
    obtain ⟨names, hknown⟩ := h.mem_marked_iff_knows.mp hmarked
    refine ⟨(h.mem_iff path).mpr (hfaithful.asked_of_marked path hmarked), ?_⟩
    exact ⟨names, h.list_of_lookup hknown⟩
  · rintro ⟨hpath, names, hlist⟩
    obtain ⟨client, hmark⟩ := (h.mem_iff path).mp hpath
    exact hfaithful.marked_of_asked client path names hmark hlist

theorem lookup_eq (h : Settles store paths events shared) (path : String) :
    shared.cache.known.lookup path =
      if path ∈ paths then (store.list path).toOption else none := by
  cases hknown : shared.cache.known.lookup path with
  | some names =>
      have hmarked := h.mem_marked_iff_knows.mpr ⟨names, hknown⟩
      rw [if_pos ((h.mem_marked_iff path).mp hmarked).1, h.list_of_lookup hknown]
      rfl
  | none =>
      split
      · rename_i hpath
        cases hlist : store.list path with
        | error cause => rfl
        | ok names =>
            have hmarked := (h.mem_marked_iff path).mpr ⟨hpath, names, hlist⟩
            obtain ⟨names', hknown'⟩ := h.mem_marked_iff_knows.mp hmarked
            rw [hknown] at hknown'
            cases hknown'
      · rfl

end Settles

/-- Two runs over one store that asked for the same paths end with the same names and marks: the
names that the store has below each path, and marks on the paths that it does not refuse. -/
theorem settled_eq {store : Store} {paths : Finset String} {events events' : List (Event Client)}
    {shared shared' : Shared Client} (h : Settles store paths events shared)
    (h' : Settles store paths events' shared') :
    (∀ path, shared.cache.known.lookup path = shared'.cache.known.lookup path) ∧
    (∀ path, path ∈ shared.cache.marked ↔ path ∈ shared'.cache.marked) ∧
    (∀ path, shared.cache.known.lookup path =
      if path ∈ paths then (store.list path).toOption else none) ∧
    ∀ path, path ∈ shared.cache.marked ↔ path ∈ paths ∧ ∃ names, store.list path = .ok names := by
  refine ⟨fun path => ?_, fun path => ?_, h.lookup_eq, h.mem_marked_iff⟩
  · rw [h.lookup_eq, h'.lookup_eq]
  · rw [h.mem_marked_iff, h'.mem_marked_iff]

/-- A path that the store refuses, asked for once behind the root, or twice around it. -/
theorem settled_eq_refused :
    ∃ shared shared' : Shared Nat,
      Settles (.mk [("users", .object [])]) {"", "users"}
        [.mark 0 "", .bring "" ["users"], .mark 1 "users", .fail "users"] shared ∧
      Settles (.mk [("users", .object [])]) {"", "users"}
        [.mark 1 "users", .fail "users", .mark 0 "", .mark 2 "users", .fail "users",
          .bring "" ["users"]] shared' ∧
      ∀ path, shared.cache.known.lookup path = shared'.cache.known.lookup path := by
  have hlist : (Store.mk [("users", .object [])]).list "" = .ok ["users"] := by decide +kernel
  have hrefused : (Store.mk [("users", .object [])]).list "users" =
      .error (.notFound "users") := by decide +kernel
  have hstart : Run (.ofCache .empty) ([] : List (Event Nat)) _ := .nil
  have hroot := (hstart.snoc (.mark 0 "" rfl)).snoc (.bring "" ["users"] (by decide))
  have hrun := (hroot.snoc (.mark 1 "users" rfl)).snoc (.fail "users" (by decide))
  have hasked := (hstart.snoc (.mark 1 "users" rfl)).snoc (.fail "users" (by decide))
  have hagain := (hasked.snoc (.mark 0 "" rfl)).snoc (.mark 2 "users" rfl)
  have hrun' := (hagain.snoc (.fail "users" (by decide))).snoc (.bring "" ["users"] (by decide))
  have hsettles : Settles (.mk [("users", .object [])]) {"", "users"} _ _ :=
    ⟨hrun, by simp [Event.Agrees, hlist, hrefused], by simp [exists_or], rfl⟩
  have hsettles' : Settles (.mk [("users", .object [])]) {"", "users"} _ _ :=
    ⟨hrun', by simp [Event.Agrees, hlist, hrefused], by simp [exists_or, or_comm], rfl⟩
  exact ⟨_, _, hsettles, hsettles', (settled_eq hsettles hsettles').1⟩

end DocShell.Completion
