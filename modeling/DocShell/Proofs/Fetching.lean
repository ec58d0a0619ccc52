import DocShell.Completion.Cache
import Mathlib.Logic.Function.Basic

/-!
A cache that clients share, while they ask for paths and fetches end, in any order. A client marks
a path first and reads its names later, and all that happens in between is left open.
Main statement: a path is fetched again only after a fetch of it has failed, and names that have
come stay.
-/

namespace DocShell.Completion

namespace Cache

/-- The names below a path are bound, be it to none. -/
def Knows (cache : Cache) (path : String) : Prop := ∃ names, cache.known.lookup path = some names

theorem request_of_mem {cache : Cache} {path : String} (h : path ∈ cache.marked) :
    cache.request path = cache := by
  simp [request, isStarted, h]

theorem request_of_not_mem {cache : Cache} {path : String} (h : path ∉ cache.marked) :
    cache.request path =
      { cache with marked := path :: cache.marked, inFlight := cache.inFlight ++ [path] } := by
  simp [request, isStarted, h]

@[simp] theorem known_request (cache : Cache) (path : String) :
    (cache.request path).known = cache.known := by
  unfold request
  split <;> rfl

theorem mem_marked_request {cache : Cache} {path other : String} :
    other ∈ (cache.request path).marked ↔ other = path ∨ other ∈ cache.marked := by
  by_cases h : path ∈ cache.marked
  · rw [request_of_mem h]
    constructor
    · exact .inr
    · rintro (rfl | hother)
      · exact h
      · exact hother
  · rw [request_of_not_mem h]
    exact List.mem_cons

theorem lookup_succeed (cache : Cache) (path other : String) (names : List String) :
    (cache.succeed path names).known.lookup other =
      if other = path then some names else cache.known.lookup other := by
  simp only [succeed, List.lookup_cons]
  by_cases h : other = path
  · simp [h]
  · have hbeq : (other == path) = false := by simpa using h
    simp [h, hbeq]

theorem mem_marked_fail {cache : Cache} {path other : String} :
    other ∈ (cache.fail path).marked ↔ other ∈ cache.marked ∧ other ≠ path := by
  simp [fail]

theorem calls_request_of_not_mem {cache : Cache} {path : String} (h : path ∉ cache.marked)
    (other : String) :
    (cache.request path).calls other = cache.calls other + if other = path then 1 else 0 := by
  rw [request_of_not_mem h]
  simp only [calls, List.count_append, List.count_singleton, beq_iff_eq, eq_comm (a := path)]
  omega

theorem count_erase_append {inFlight finished : List String} {path : String}
    (h : path ∈ inFlight) (other : String) :
    (inFlight.erase path ++ (finished ++ [path])).count other =
      (inFlight ++ finished).count other := by
  have hperm : (inFlight.erase path ++ (finished ++ [path])).Perm (inFlight ++ finished) := by
    rw [← List.append_assoc]
    refine List.perm_append_comm.trans ?_
    exact ((List.perm_cons_erase h).append_right finished).symm
  exact hperm.count_eq other

theorem calls_succeed {cache : Cache} {path : String} (h : path ∈ cache.inFlight)
    (names : List String) (other : String) :
    (cache.succeed path names).calls other = cache.calls other :=
  count_erase_append h other

theorem calls_fail {cache : Cache} {path : String} (h : path ∈ cache.inFlight) (other : String) :
    (cache.fail path).calls other = cache.calls other :=
  count_erase_append h other

/-- No path is fetched twice at a time, and a path is marked as long as it is in flight or bound,
which it never is at once. -/
structure Consistent (cache : Cache) : Prop where
  nodup_inFlight : cache.inFlight.Nodup
  mem_marked_iff : ∀ path, path ∈ cache.marked ↔ path ∈ cache.inFlight ∨ cache.Knows path
  not_knows : ∀ path ∈ cache.inFlight, ¬cache.Knows path

theorem consistent_ofEntries (entries : List (String × List String)) :
    (ofEntries entries).Consistent where
  nodup_inFlight := List.nodup_nil
  mem_marked_iff := by
    intro path
    have hlookup : (ofEntries entries).Knows path ↔ (entries.reverse.lookup path).isSome := by
      rw [Option.isSome_iff_exists]
      rfl
    rw [hlookup, List.lookup_isSome_iff]
    simp [ofEntries]
  not_knows := by
    intro path h
    cases h

namespace Consistent

variable {cache : Cache} {path : String}

theorem request (h : cache.Consistent) (path : String) : (cache.request path).Consistent := by
  by_cases hmarked : path ∈ cache.marked
  · rw [request_of_mem hmarked]
    exact h
  · have hnew := not_or.mp (mt (h.mem_marked_iff path).mpr hmarked)
    rw [request_of_not_mem hmarked]
    constructor
    · show (cache.inFlight ++ [path]).Nodup
      rw [(List.perm_append_singleton path cache.inFlight).nodup_iff, List.nodup_cons]
      exact ⟨hnew.1, h.nodup_inFlight⟩
    · intro other
      show other ∈ path :: cache.marked ↔ other ∈ cache.inFlight ++ [path] ∨ cache.Knows other
      rw [List.mem_cons, List.mem_append, List.mem_singleton, h.mem_marked_iff]
      constructor
      · rintro (rfl | hfly | hknown)
        · exact .inl (.inr rfl)
        · exact .inl (.inl hfly)
        · exact .inr hknown
      · rintro ((hfly | rfl) | hknown)
        · exact .inr (.inl hfly)
        · exact .inl rfl
        · exact .inr (.inr hknown)
    · intro other hother
      rcases List.mem_append.mp hother with hfly | hpath
      · exact h.not_knows other hfly
      · rw [List.mem_singleton.mp hpath]
        exact hnew.2

theorem succeed (h : cache.Consistent) (hfly : path ∈ cache.inFlight) (names : List String) :
    (cache.succeed path names).Consistent := by
  have hknows : ∀ other, (cache.succeed path names).Knows other ↔
      other = path ∨ cache.Knows other := by
    intro other
    rw [Knows, lookup_succeed]
    by_cases heq : other = path
    · simp [heq]
    · simp [heq, Knows]
  constructor
  · exact h.nodup_inFlight.erase path
  · intro other
    show other ∈ cache.marked ↔ other ∈ cache.inFlight.erase path ∨ _
    rw [hknows, h.mem_marked_iff, h.nodup_inFlight.mem_erase_iff]
    constructor
    · rintro (hother | hother)
      · by_cases heq : other = path
        · exact .inr (.inl heq)
        · exact .inl ⟨heq, hother⟩
      · exact .inr (.inr hother)
    · rintro (⟨-, hother⟩ | rfl | hother)
      · exact .inl hother
      · exact .inl hfly
      · exact .inr hother
  · intro other hother
    obtain ⟨hne, hfly'⟩ := h.nodup_inFlight.mem_erase_iff.mp hother
    rw [hknows, not_or]
    exact ⟨hne, h.not_knows other hfly'⟩

theorem fail (h : cache.Consistent) (hfly : path ∈ cache.inFlight) :
    (cache.fail path).Consistent := by
  constructor
  · exact h.nodup_inFlight.erase path
  · intro other
    show _ ↔ other ∈ cache.inFlight.erase path ∨ cache.Knows other
    rw [mem_marked_fail, h.mem_marked_iff, h.nodup_inFlight.mem_erase_iff]
    constructor
    · rintro ⟨hother | hother, hne⟩
      · exact .inl ⟨hne, hother⟩
      · exact .inr hother
    · rintro (⟨hne, hother⟩ | hother)
      · exact ⟨.inl hother, hne⟩
      · refine ⟨.inr hother, ?_⟩
        rintro rfl
        exact h.not_knows other hfly hother
  · intro other hother
    exact h.not_knows other (h.nodup_inFlight.mem_erase_iff.mp hother).2

theorem mem_marked_iff_of_idle (h : cache.Consistent) (hidle : cache.inFlight = []) :
    path ∈ cache.marked ↔ cache.Knows path := by
  rw [h.mem_marked_iff, hidle, or_iff_right List.not_mem_nil]

end Consistent

end Cache

/-- One thing that happens: a client marks a path that it asks for, it reads the names below it, a
fetch brings names, or a fetch fails. -/
inductive Event (Client : Type) where
  | mark (client : Client) (path : String)
  | read (client : Client) (path : String) (names : List String)
  | bring (path : String) (names : List String)
  | fail (path : String)

variable {Client : Type}

def Event.names? (path : String) : Event Client → Option (List String)
  | .bring other names => if other = path then some names else none
  | _ => none

/-- What a cache has been told of a path, at its opening or by the events up to now. -/
def told (entries : List (String × List String)) (events : List (Event Client)) (path : String) :
    Option (List String) :=
  (entries.reverse.lookup path).or (events.findSome? (Event.names? path))

theorem told_append (entries : List (String × List String)) (events : List (Event Client))
    (event : Event Client) (path : String) :
    told entries (events ++ [event]) path =
      (told entries events path).or (event.names? path) := by
  rw [told, told, List.findSome?_append, Option.or_assoc]
  congr 2
  cases h : event.names? path <;> simp [h]

def Event.isFailure (path : String) : Event Client → Bool
  | .fail other => other == path
  | _ => false

def failures (events : List (Event Client)) (path : String) : Nat :=
  events.countP (Event.isFailure path)

theorem failures_append (events : List (Event Client)) (event : Event Client) (path : String) :
    failures (events ++ [event]) path = failures events path + (event.isFailure path).toNat := by
  rw [failures, failures, List.countP_append, List.countP_singleton]
  cases event.isFailure path <;> rfl

/-- Every call of a path but one is paid for by a failure, and the last one too where the path is
not marked any more. -/
structure Paid (events : List (Event Client)) (cache : Cache) : Prop where
  calls_le : ∀ path, cache.calls path ≤ 1 + failures events path
  calls_le_of_not_mem : ∀ path, path ∉ cache.marked → cache.calls path ≤ failures events path

theorem Paid.append {events : List (Event Client)} {cache : Cache} (h : Paid events cache)
    (event : Event Client) : Paid (events ++ [event]) cache := by
  have hle : ∀ path, failures events path ≤ failures (events ++ [event]) path := by
    intro path
    rw [failures_append]
    exact Nat.le_add_right _ _
  constructor
  · exact fun path => Nat.le_trans (h.calls_le path) (Nat.add_le_add_left (hle path) 1)
  · exact fun path hpath => Nat.le_trans (h.calls_le_of_not_mem path hpath) (hle path)

structure Recorded (entries : List (String × List String)) (events : List (Event Client))
    (cache : Cache) : Prop where
  consistent : cache.Consistent
  paid : Paid events cache
  lookup_eq : ∀ path, cache.known.lookup path = told entries events path

theorem recorded_ofEntries (entries : List (String × List String)) :
    Recorded entries ([] : List (Event Client)) (Cache.ofEntries entries) where
  consistent := Cache.consistent_ofEntries entries
  paid := ⟨fun _ => Nat.zero_le _, fun _ _ => Nat.le_refl 0⟩
  lookup_eq _ := (Option.or_none).symm

/-- A cache and its clients, each with the path that it has marked and not read yet. -/
structure Shared (Client : Type) where
  cache : Cache
  asked : Client → Option String

variable [DecidableEq Client]

namespace Shared

def ofCache (cache : Cache) : Shared Client := ⟨cache, fun _ => none⟩

def mark (shared : Shared Client) (client : Client) (path : String) : Shared Client :=
  ⟨shared.cache.request path, Function.update shared.asked client (some path)⟩

def read (shared : Shared Client) (client : Client) : Shared Client :=
  { shared with asked := Function.update shared.asked client none }

@[simp] theorem cache_mark (shared : Shared Client) (client : Client) (path : String) :
    (shared.mark client path).cache = shared.cache.request path := rfl

end Shared

/-- Any client that is not about to read may mark any path, and any fetch that is in flight may
end either way. -/
inductive Step : Shared Client → Event Client → Shared Client → Prop
  | mark {shared} (client path) : shared.asked client = none →
      Step shared (.mark client path) (shared.mark client path)
  | read {shared} (client path) : shared.asked client = some path →
      Step shared (.read client path (shared.cache.cached path)) (shared.read client)
  | bring {shared} (path names) : path ∈ shared.cache.inFlight →
      Step shared (.bring path names) { shared with cache := shared.cache.succeed path names }
  | fail {shared} (path) : path ∈ shared.cache.inFlight →
      Step shared (.fail path) { shared with cache := shared.cache.fail path }

/-- The events from one state to another, in their order. -/
inductive Run (start : Shared Client) : List (Event Client) → Shared Client → Prop
  | nil : Run start [] start
  | snoc {events shared event next} :
      Run start events shared → Step shared event next → Run start (events ++ [event]) next

theorem Run.append {start middle last : Shared Client} {front back : List (Event Client)}
    (hfront : Run start front middle) (hback : Run middle back last) :
    Run start (front ++ back) last := by
  induction hback with
  | nil => simpa using hfront
  | snoc _ hstep ih =>
      rw [← List.append_assoc]
      exact ih.snoc hstep

theorem Run.split {start last : Shared Client} {front back : List (Event Client)}
    {event : Event Client} (h : Run start (front ++ event :: back) last) :
    ∃ shared next, Run start front shared ∧ Step shared event next ∧ Run next back last := by
  generalize hevents : front ++ event :: back = events at h
  induction h generalizing back with
  | nil => simp at hevents
  | @snoc before shared final next hbefore hstep ih =>
      rcases List.eq_nil_or_concat back with rfl | ⟨init, final', rfl⟩
      · obtain ⟨rfl, hfinal⟩ := List.append_inj' hevents rfl
        obtain rfl := (List.cons.inj hfinal).1
        exact ⟨shared, next, hbefore, hstep, .nil⟩
      · rw [List.concat_eq_append, ← List.cons_append, ← List.append_assoc] at hevents
        obtain ⟨hinit, hfinal⟩ := List.append_inj' hevents rfl
        obtain ⟨shared', next', hfront, hevent, hback⟩ := ih hinit
        obtain rfl := (List.cons.inj hfinal).1
        exact ⟨shared', next', hfront, hevent, by rw [List.concat_eq_append]; exact hback.snoc hstep⟩

/-- An asking of the cache without a pause is a mark and then a read. -/
theorem run_get (shared : Shared Client) {client : Client} (path : String)
    (h : shared.asked client = none) :
    Run shared [.mark client path, .read client path (shared.cache.get path).1]
      ⟨(shared.cache.get path).2, shared.asked⟩ := by
  have hread : Step (shared.mark client path)
      (.read client path (shared.cache.get path).1) ((shared.mark client path).read client) :=
    .read client path (Function.update_self ..)
  have hasked : (shared.mark client path).read client =
      ⟨(shared.cache.get path).2, shared.asked⟩ := by
    simp [Shared.mark, Shared.read, Cache.get, ← h]
  rw [← hasked]
  exact (Run.nil.snoc (.mark client path h)).snoc hread

section Step

variable {entries : List (String × List String)} {events : List (Event Client)}
  {shared next : Shared Client} {event : Event Client}

theorem Step.consistent (hstep : Step shared event next) (h : shared.cache.Consistent) :
    next.cache.Consistent := by
  cases hstep with
  | mark client path _ => exact h.request path
  | read => exact h
  | bring path names hfly => exact h.succeed hfly names
  | fail path hfly => exact h.fail hfly

theorem Step.paid (hstep : Step shared event next)
    (hpaid : Paid events shared.cache) : Paid (events ++ [event]) next.cache := by
  have hlater := hpaid.append event
  cases hstep with
  | mark client path hasked =>
      by_cases hmarked : path ∈ shared.cache.marked
      · rw [Shared.cache_mark, Cache.request_of_mem hmarked]
        exact hlater
      · constructor
        · intro other
          rw [Shared.cache_mark, Cache.calls_request_of_not_mem hmarked]
          split
          · rename_i heq
            have hfree := hlater.calls_le_of_not_mem path hmarked
            rw [heq]
            omega
          · exact hlater.calls_le other
        · intro other hother
          rw [Shared.cache_mark, Cache.mem_marked_request, not_or] at hother
          rw [Shared.cache_mark, Cache.calls_request_of_not_mem hmarked, if_neg hother.1]
          exact hlater.calls_le_of_not_mem other hother.2
  | read => exact hlater
  | bring path names hfly =>
      constructor
      · intro other
        rw [Cache.calls_succeed hfly]
        exact hlater.calls_le other
      · intro other hother
        rw [Cache.calls_succeed hfly]
        exact hlater.calls_le_of_not_mem other hother
  | fail path hfly =>
      constructor
      · intro other
        rw [Cache.calls_fail hfly]
        exact hlater.calls_le other
      · intro other hother
        rw [Cache.mem_marked_fail, not_and_not_right] at hother
        rw [Cache.calls_fail hfly]
        by_cases heq : path = other
        · -- The mark is gone, and the failure pays for the call that was free.
          have hbefore := hpaid.calls_le other
          rw [failures_append]
          simp only [Event.isFailure, heq, beq_self_eq_true, Bool.toNat_true]
          omega
        · exact hlater.calls_le_of_not_mem other fun hmem => heq (hother hmem).symm

theorem Step.lookup_eq (hstep : Step shared event next) (h : shared.cache.Consistent)
    (path : String) :
    next.cache.known.lookup path = (shared.cache.known.lookup path).or (event.names? path) := by
  cases hstep with
  | mark => simp [Event.names?]
  | read => simp [Event.names?, Shared.read]
  | bring other names hfly =>
      show (shared.cache.succeed other names).known.lookup path = _
      rw [Cache.lookup_succeed]
      by_cases heq : path = other
      · -- Nothing was known of a path in flight, so that what comes now has come first.
        subst heq
        have hnone : shared.cache.known.lookup path = none := by
          rw [Option.eq_none_iff_forall_not_mem]
          exact fun names hnames => h.not_knows path hfly ⟨names, hnames⟩
        simp [hnone, Event.names?]
      · simp [Event.names?, heq, Ne.symm heq]
  | fail => simp [Event.names?, Cache.fail]

theorem Recorded.step (h : Recorded entries events shared.cache)
    (hstep : Step shared event next) : Recorded entries (events ++ [event]) next.cache where
  consistent := hstep.consistent h.consistent
  paid := hstep.paid h.paid
  lookup_eq path := by rw [told_append, ← h.lookup_eq, hstep.lookup_eq h.consistent]

theorem Step.keeps (hstep : Step shared event next) (h : shared.cache.Consistent) {path : String}
    {names : List String} (hknown : shared.cache.known.lookup path = some names) :
    next.cache.known.lookup path = some names ∧
      next.cache.calls path = shared.cache.calls path := by
  cases hstep with
  | mark client other hasked =>
      refine ⟨by simpa using hknown, ?_⟩
      show (shared.cache.request other).calls path = _
      by_cases hmarked : other ∈ shared.cache.marked
      · rw [Cache.request_of_mem hmarked]
      · have hne : path ≠ other := by
          rintro rfl
          exact hmarked ((h.mem_marked_iff path).mpr (.inr ⟨names, hknown⟩))
        rw [Cache.calls_request_of_not_mem hmarked, if_neg hne, Nat.add_zero]
  | read => exact ⟨hknown, rfl⟩
  | bring other names' hfly =>
      have hne : path ≠ other := by
        rintro rfl
        exact h.not_knows path hfly ⟨names, hknown⟩
      refine ⟨?_, Cache.calls_succeed hfly names' path⟩
      show (shared.cache.succeed other names').known.lookup path = _
      rw [Cache.lookup_succeed, if_neg hne]
      exact hknown
  | fail other hfly => exact ⟨hknown, Cache.calls_fail hfly path⟩

theorem Recorded.run (h : Recorded entries events shared.cache) {later : List (Event Client)}
    (hrun : Run shared later next) : Recorded entries (events ++ later) next.cache := by
  induction hrun with
  | nil => simpa using h
  | snoc _ hstep ih =>
      rw [← List.append_assoc]
      exact ih.step hstep

theorem Run.keeps {later : List (Event Client)} (hrun : Run shared later next)
    (h : Recorded entries events shared.cache) {path : String} {names : List String}
    (hknown : shared.cache.known.lookup path = some names) :
    next.cache.known.lookup path = some names ∧
      next.cache.calls path = shared.cache.calls path := by
  induction hrun with
  | nil => exact ⟨hknown, rfl⟩
  | snoc hbefore hstep ih =>
      obtain ⟨hlookup, hcalls⟩ := hstep.keeps (h.run hbefore).consistent ih.1
      exact ⟨hlookup, hcalls.trans ih.2⟩

end Step

/-- A read gives what the cache has been told of the path, or nothing. -/
theorem read_eq_told {entries : List (String × List String)} {front back : List (Event Client)}
    {client : Client} {path : String} {names : List String} {shared : Shared Client}
    (h : Run (.ofCache (.ofEntries entries)) (front ++ .read client path names :: back) shared) :
    names = (told entries front path).getD [] := by
  obtain ⟨before, after, hfront, hstep, -⟩ := h.split
  have hbefore := (recorded_ofEntries entries).run hfront
  cases hstep with
  | read => rw [Cache.cached, hbefore.lookup_eq, List.nil_append]

/-- At every point of every run of a cache that was opened with some names: nothing is in flight
twice, the marks are what is in flight and what is bound, each further call of a path is paid for
by a failure, what is bound stays and is never fetched again, and a read gives nothing or what the
cache has been told of the path. -/
theorem fetched_once {entries : List (String × List String)} {events : List (Event Client)}
    {shared : Shared Client} (hrun : Run (.ofCache (.ofEntries entries)) events shared) :
    shared.cache.Consistent ∧
    (∀ path, shared.cache.calls path ≤ 1 + failures events path) ∧
    (∀ path ∈ entries.map Prod.fst, shared.cache.calls path = 0) ∧
    (∀ path, shared.cache.known.lookup path = told entries events path) ∧
    (∀ path names, shared.cache.known.lookup path = some names → ∀ later next,
      Run shared later next → next.cache.known.lookup path = some names ∧
        next.cache.calls path = shared.cache.calls path) ∧
    ∀ front client path names back, events = front ++ .read client path names :: back →
      told entries front path = none ∧ names = [] ∨ told entries front path = some names := by
  have hstart : Recorded entries ([] : List (Event Client)) (Cache.ofEntries entries) :=
    recorded_ofEntries entries
  have hrecorded := hstart.run hrun
  refine ⟨hrecorded.consistent, fun path => ?_, fun path hpath => ?_, hrecorded.lookup_eq,
    fun path names hknown later next hlater => hlater.keeps hrecorded hknown, ?_⟩
  · exact hrecorded.paid.calls_le path
  · have hmarked : path ∈ (Cache.ofEntries entries).marked := hpath
    rcases ((Cache.consistent_ofEntries entries).mem_marked_iff path).mp hmarked with
      hfly | ⟨names, hknown⟩
    · cases hfly
    · exact (hrun.keeps hstart hknown).2
  · rintro front client path names back rfl
    have hread := read_eq_told hrun
    cases htold : told entries front path with
    | none => exact .inl ⟨rfl, by rw [hread, htold]; rfl⟩
    | some brought => exact .inr (by rw [hread, htold]; rfl)

/-- A fetch that failed and was retried: the path is called twice, and not again. -/
theorem fetched_once_retry :
    ∃ shared : Shared Nat,
      Run (.ofCache (.ofEntries [("", ["users"])]))
        [.mark 0 "a", .mark 1 "a", .read 1 "a" [], .fail "a", .mark 1 "a", .bring "a" ["b"],
          .read 0 "a" ["b"]] shared ∧
      shared.cache.Consistent ∧ shared.cache.calls "a" ≤ 2 ∧ shared.cache.calls "" = 0 := by
  have hstart : Run (.ofCache (.ofEntries [("", ["users"])])) ([] : List (Event Nat)) _ := .nil
  have hasked := (hstart.snoc (.mark 0 "a" rfl)).snoc (.mark 1 "a" rfl)
  have hfailed := (hasked.snoc (.read 1 "a" rfl)).snoc (.fail "a" (by decide))
  have hretried := (hfailed.snoc (.mark 1 "a" rfl)).snoc (.bring "a" ["b"] (by decide))
  have hrun := hretried.snoc (.read 0 "a" rfl)
  obtain ⟨hconsistent, hcalls, hgiven, -⟩ := fetched_once hrun
  exact ⟨_, hrun, hconsistent, hcalls "a", hgiven "" (by decide)⟩

end DocShell.Completion
