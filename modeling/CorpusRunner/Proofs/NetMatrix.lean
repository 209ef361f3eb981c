import CorpusRunner.Misc.JsonRead
import CorpusRunner.Misc.ListOrder
import CorpusRunner.Misc.Run
import CorpusRunner.Misc.Utf8Encode
import CorpusRunner.NetHarness

/-!
# The rows of the capability matrix

Promises are settled, timers fire and callbacks register cleanups in any order, also those of
probes whose row has long been written. The row of a probe is what the first event says that
decides its race; the cleanup that runs is the last one that was registered until then, and it
runs once (`matrix_rows`). No probe can keep the matrix from its end (`matrix_ends`).
-/

namespace CorpusRunner

namespace NetHarness

variable {κ : Type}

/-! ## What an event says of a call -/

/-- The call that an event is about. -/
def Event.about : Event κ → Option Nat
  | .call i _ _ _ => some i
  | .cln i _ => some i
  | .settle i _ => some i
  | .fire t => some t.callback
  | .uncaught _ => none

/-- How an event decides the race of call `i`, if the race is open. -/
def Event.decides (i : Nat) : Event κ → Option Outcome
  | .call j _ _ thrown => if j = i then thrown.map Thrown.outcome else none
  | .settle j r => if j = i then some r.outcome else none
  | .fire t => if t.callback = i then some hang else none
  | _ => none

/-- The cleanups that an event registers for call `i`. -/
def Event.handed (i : Nat) : Event κ → List κ
  | .call j _ cleanups _ => if j = i then cleanups else []
  | .cln j c => if j = i then [c] else []
  | _ => []

/-- What decides the race of call `i` first. -/
def verdict (i : Nat) (es : List (Event κ)) : Option Outcome := es.findSome? (Event.decides i)

/-- The events up to the one that decides the race of call `i`. -/
def untilDecided (i : Nat) : List (Event κ) → List (Event κ)
  | [] => []
  | e :: es => if (e.decides i).isSome then [e] else e :: untilDecided i es

/-- The last cleanup that is registered for call `i`. -/
def lastCleanup (i : Nat) (es : List (Event κ)) : Option κ := (es.flatMap (Event.handed i)).getLast?

variable {e : Event κ} {es : List (Event κ)} {i j : Nat}

theorem decides_of_about (h : e.about ≠ some i) : e.decides i = none := by
  cases e <;> simp_all [Event.about, Event.decides]

theorem handed_of_about (h : e.about ≠ some i) : e.handed i = [] := by
  cases e <;> simp_all [Event.about, Event.handed]

theorem verdict_snoc : verdict i (es ++ [e]) = (verdict i es).or (e.decides i) := by
  simp [verdict, List.findSome?_append, Option.or]

/-- What comes after the decision does not matter. -/
theorem untilDecided_snoc_of_some (h : (verdict i es).isSome) :
    untilDecided i (es ++ [e]) = untilDecided i es := by
  induction es with
  | nil => cases h
  | cons a es ih =>
    rw [List.cons_append, untilDecided, untilDecided]
    split
    · rfl
    · rename_i hnone
      rw [verdict, List.findSome?_cons, Option.not_isSome_iff_eq_none.mp hnone] at h
      rw [ih h]

theorem untilDecided_snoc_of_none (h : verdict i es = none) :
    untilDecided i (es ++ [e]) = es ++ [e] := by
  induction es with
  | nil =>
    rw [List.nil_append, untilDecided]
    split <;> rfl
  | cons a es ih =>
    rw [verdict, List.findSome?_cons] at h
    split at h
    · cases h
    · rename_i hnone
      rw [List.cons_append, untilDecided, hnone, ih h]
      rfl

theorem lastCleanup_snoc : lastCleanup i (es ++ [e]) =
    (e.handed i).getLast?.or (lastCleanup i es) := by
  simp [lastCleanup, List.getLast?_append]

theorem lastCleanup_snoc_of_nil (h : e.handed i = []) :
    lastCleanup i (es ++ [e]) = lastCleanup i es := by
  rw [lastCleanup_snoc, h]
  rfl

theorem lastCleanup_of_about (h : ∀ e ∈ es, e.about ≠ some i) : lastCleanup i es = none := by
  have hnil : es.flatMap (Event.handed i) = [] :=
    List.flatMap_eq_nil_iff.mpr fun e he => handed_of_about (h e he)
  rw [lastCleanup, hnil]
  rfl

/-! ## The rows -/

/-- Row `i`, once the race is decided. -/
def rowOf (probes : List Probe) (es : List (Event κ)) (i : Nat) : Option Row :=
  (verdict i es).bind fun out => probes[i]?.map fun p => ⟨p.name, p.note, out⟩

/-- The cleanup that runs for call `i`, with its number. -/
def cleanedOf (es : List (Event κ)) (i : Nat) : Option (Nat × κ) :=
  (lastCleanup i (untilDecided i es)).map (i, ·)

/-- The rows and the cleanups that have run are those of the events. -/
structure RowsOf (probes : List Probe) (es : List (Event κ)) (results : List Row)
    (cleaned : List (Nat × κ)) : Prop where
  decided : ∀ i, (verdict i es).isSome ↔ i < results.length
  rows : ∀ i, results[i]? = rowOf probes es i
  cleaned : cleaned = (List.range results.length).filterMap (cleanedOf es)

variable {probes : List Probe} {results : List Row} {cleaned : List (Nat × κ)}

theorem RowsOf.verdict_eq_none (h : RowsOf probes es results cleaned) (hi : results.length ≤ i) :
    verdict i es = none := by
  rw [← Option.not_isSome_iff_eq_none, h.decided]
  omega

/-- The rows are those whose races are decided, in the order of the probes. -/
theorem RowsOf.results_eq (h : RowsOf probes es results cleaned) :
    results = (List.range results.length).filterMap (rowOf probes es) := by
  have hget : ∀ i, rowOf probes es i = results[i]? := fun i => (h.rows i).symm
  rw [funext hget]
  clear hget h
  induction results using List.reverseRecOn with
  | nil => rfl
  | append_singleton results row ih =>
    have hleft : ∀ i ∈ List.range results.length, (results ++ [row])[i]? = results[i]? :=
      fun i hi => List.getElem?_append_left (List.mem_range.mp hi)
    rw [List.length_append, List.length_singleton, List.range_succ, List.filterMap_append,
      List.filterMap_congr hleft, ← ih]
    simp

theorem rowsOf_nil (probes : List Probe) : RowsOf (κ := κ) probes [] [] [] where
  decided := by simp [verdict]
  rows := by simp [rowOf, verdict]
  cleaned := rfl

theorem cleanedOf_snoc (h : RowsOf probes es results cleaned) (e : Event κ) :
    (List.range results.length).filterMap (cleanedOf (es ++ [e])) = cleaned := by
  rw [h.cleaned]
  apply List.filterMap_congr
  intro i hi
  rw [cleanedOf, cleanedOf,
    untilDecided_snoc_of_some ((h.decided i).mpr (List.mem_range.mp hi))]

/-- An event that is not about the race that is open changes nothing. -/
theorem RowsOf.keep (h : RowsOf probes es results cleaned)
    (he : ∀ i, results.length ≤ i → e.decides i = none) :
    RowsOf probes (es ++ [e]) results cleaned := by
  have hverdict : ∀ i, verdict i (es ++ [e]) = verdict i es := by
    intro i
    rw [verdict_snoc]
    by_cases hi : i < results.length
    · obtain ⟨out, hout⟩ := Option.isSome_iff_exists.mp ((h.decided i).mpr hi)
      rw [hout, Option.some_or]
    · rw [he i (by omega), Option.or_none]
  refine ⟨fun i => by rw [hverdict, h.decided], fun i => ?_, (cleanedOf_snoc h e).symm⟩
  rw [h.rows, rowOf, rowOf, hverdict]

/-- The event decides the race that is open. -/
theorem RowsOf.decide (h : RowsOf probes es results cleaned) {out : Outcome} {p : Probe}
    (he : e.decides results.length = some out) (hp : probes[results.length]? = some p)
    (hother : ∀ i, results.length < i → e.decides i = none) :
    RowsOf probes (es ++ [e]) (results ++ [⟨p.name, p.note, out⟩])
      (cleaned ++ ((lastCleanup results.length (es ++ [e])).map (results.length, ·)).toList) where
  decided := by
    intro i
    rw [verdict_snoc, List.length_append, List.length_singleton]
    rcases Nat.lt_trichotomy i results.length with hi | rfl | hi
    · obtain ⟨out', hout⟩ := Option.isSome_iff_exists.mp ((h.decided i).mpr hi)
      simp [hout, Nat.lt_succ_of_lt hi]
    · simp [he]
    · rw [h.verdict_eq_none (Nat.le_of_lt hi), hother i hi]
      simp
      omega
  rows := by
    intro i
    rw [rowOf, verdict_snoc]
    rcases Nat.lt_trichotomy i results.length with hi | rfl | hi
    · obtain ⟨out', hout⟩ := Option.isSome_iff_exists.mp ((h.decided i).mpr hi)
      rw [List.getElem?_append_left hi, h.rows, rowOf, hout, Option.some_or]
    · rw [List.getElem?_concat_length, h.verdict_eq_none (Nat.le_refl _), he, Option.none_or,
        Option.bind_some, hp]
      rfl
    · rw [h.verdict_eq_none (Nat.le_of_lt hi), hother i hi, Option.none_or, Option.bind_none,
        List.getElem?_eq_none]
      rw [List.length_append, List.length_singleton]
      exact hi
  cleaned := by
    have huntil : untilDecided results.length (es ++ [e]) = es ++ [e] :=
      untilDecided_snoc_of_none (h.verdict_eq_none (Nat.le_refl _))
    rw [List.length_append, List.length_singleton, List.range_succ, List.filterMap_append,
      cleanedOf_snoc h e]
    simp only [List.filterMap_cons, List.filterMap_nil, cleanedOf, huntil]
    cases lastCleanup results.length (es ++ [e]) <;> rfl

/-! ## The calls -/

/-- The calls are those of the events, and the first `done` of them have returned. -/
structure CallsOf (probes : List Probe) (es : List (Event κ)) (calls : List (Call κ))
    (timers : Timers Nat) (done : Nat) : Prop where
  done_le : done ≤ calls.length
  length_le : calls.length ≤ done + 1
  within : calls.length ≤ probes.length
  returned : ∀ i c, calls[i]? = some c → (c.returned = true ↔ i < done)
  cleanup : ∀ i c, calls[i]? = some c → c.cleanup = lastCleanup i es
  about : ∀ e ∈ es, ∀ i, e.about = some i → i < calls.length
  timers : ∀ t ∈ timers.pending, t.callback < calls.length

variable {calls : List (Call κ)} {timers : Timers Nat} {done : Nat}

theorem callsOf_nil (probes : List Probe) : CallsOf (κ := κ) probes [] [] .empty 0 where
  done_le := Nat.le_refl _
  length_le := by simp
  within := by simp
  returned := by simp
  cleanup := by simp
  about := by simp
  timers := by simp [Timers.empty]

theorem about_snoc {n : Nat} (h : ∀ e ∈ es, ∀ i, e.about = some i → i < n)
    (he : ∀ i, e.about = some i → i < n) :
    ∀ a ∈ es ++ [e], ∀ i, a.about = some i → i < n := by
  intro a ha i hi
  rcases List.mem_append.mp ha with ha | ha
  · exact h a ha i hi
  · exact he i (List.mem_singleton.mp ha ▸ hi)

/-- The next probe is called. -/
theorem CallsOf.call (h : CallsOf probes es calls timers calls.length)
    (hlt : calls.length < probes.length) (now : Nat) (cleanups : List κ)
    (thrown : Option Thrown) (settled : Bool) :
    CallsOf probes (es ++ [.call calls.length now cleanups thrown])
      (calls ++ [⟨cleanups.getLast?, settled, false⟩])
      (timers.setTimeout now probeMs calls.length) calls.length where
  done_le := by simp
  length_le := by simp
  within := by simpa using Nat.succ_le_of_lt hlt
  returned := by
    intro i c hc
    rcases getElem?_concat_cases hc with ⟨hi, hc⟩ | ⟨rfl, rfl⟩
    · exact h.returned i c hc
    · simp
  cleanup := by
    intro i c hc
    rcases getElem?_concat_cases hc with ⟨hi, hc⟩ | ⟨rfl, rfl⟩
    · have hhanded : (Event.call calls.length now cleanups thrown).handed i = [] :=
        if_neg (Nat.ne_of_gt hi)
      rw [lastCleanup_snoc_of_nil hhanded, h.cleanup i c hc]
    · have hnone : lastCleanup calls.length es = none :=
        lastCleanup_of_about fun e he hi => Nat.lt_irrefl _ (h.about e he _ hi)
      rw [lastCleanup_snoc, hnone, Option.or_none]
      simp [Event.handed]
  about := by
    apply about_snoc
    · intro e he i hi
      have := h.about e he i hi
      simp
      omega
    · intro i hi
      obtain rfl := Option.some.inj hi
      simp
  timers := by
    intro t ht
    rcases Timers.mem_setTimeout.mp ht with ht | rfl
    · have := h.timers t ht
      simp
      omega
    · simp

/-- An event about a call that there is, which may write to its variables. -/
theorem CallsOf.set (h : CallsOf probes es calls timers done) {c c' : Call κ}
    (hc : calls[i]? = some c) (he : e.about = some i) (hreturned : c'.returned = c.returned)
    (hcleanup : c'.cleanup = lastCleanup i (es ++ [e])) :
    CallsOf probes (es ++ [e]) (calls.set i c') timers done where
  done_le := by simpa using h.done_le
  length_le := by simpa using h.length_le
  within := by simpa using h.within
  returned := by
    intro j d hd
    rcases getElem?_set_cases hd with ⟨rfl, rfl⟩ | ⟨-, hd⟩
    · rw [hreturned, h.returned _ c hc]
    · exact h.returned j d hd
  cleanup := by
    intro j d hd
    rcases getElem?_set_cases hd with ⟨rfl, rfl⟩ | ⟨hne, hd⟩
    · exact hcleanup
    · have hother : e.about ≠ some j := by simpa [he] using Ne.symm hne
      rw [lastCleanup_snoc_of_nil (handed_of_about hother), h.cleanup j d hd]
  about := by
    rw [List.length_set]
    apply about_snoc h.about
    intro j hj
    obtain rfl := Option.some.inj (he.symm.trans hj)
    exact (List.getElem?_eq_some_iff.mp hc).1
  timers := by simpa using h.timers

/-- An event that hands over nothing. -/
theorem CallsOf.keep (h : CallsOf probes es calls timers done) {timers' : Timers Nat}
    (he : ∀ i, e.about = some i → i < calls.length) (hhanded : ∀ i, e.handed i = [])
    (htimers : ∀ t ∈ timers'.pending, t ∈ timers.pending) :
    CallsOf probes (es ++ [e]) calls timers' done where
  done_le := h.done_le
  length_le := h.length_le
  within := h.within
  returned := h.returned
  cleanup := by
    intro i c hc
    rw [lastCleanup_snoc_of_nil (hhanded i), h.cleanup i c hc]
  about := about_snoc h.about he
  timers := fun t ht => h.timers t (htimers t ht)

/-- The call that is awaited returns. -/
theorem CallsOf.return (h : CallsOf probes es calls timers done) {c : Call κ}
    (hc : calls[done]? = some c) :
    CallsOf probes es (calls.set done { c with returned := true }) timers (done + 1) where
  done_le := by
    rw [List.length_set]
    exact (List.getElem?_eq_some_iff.mp hc).1
  length_le := by
    rw [List.length_set]
    exact Nat.le_succ_of_le h.length_le
  within := by simpa using h.within
  returned := by
    intro j d hd
    rcases getElem?_set_cases hd with ⟨rfl, rfl⟩ | ⟨hne, hd⟩
    · simp
    · rw [h.returned j d hd]
      omega
  cleanup := by
    intro j d hd
    rcases getElem?_set_cases hd with ⟨rfl, rfl⟩ | ⟨-, hd⟩
    · exact h.cleanup _ c hc
    · exact h.cleanup j d hd
  about := by simpa using h.about
  timers := by simpa using h.timers

/-! ## Runs -/

/-- As long as call `done` is awaited, its timer is armed, for the time the probes are given. -/
def Armed (es : List (Event κ)) (timers : Timers Nat) (done : Nat) : Prop :=
  ∃ t ∈ timers.pending, t.callback = done ∧
    ∃ now cleanups, .call done now cleanups none ∈ es ∧ t.due = now + probeMs

theorem Armed.keep (h : Armed es timers done) (e : Event κ) : Armed (es ++ [e]) timers done := by
  obtain ⟨t, ht, hcallback, now, cleanups, hmem, hdue⟩ := h
  exact ⟨t, ht, hcallback, now, cleanups, List.mem_append_left _ hmem, hdue⟩

/-- The timer of another call fires. -/
theorem Armed.fire (h : Armed es timers done) {t : Timer Nat} (ht : t ∈ timers.pending)
    (hne : t.callback ≠ done) : Armed es (timers.clearTimeout (some t.id)) done := by
  obtain ⟨u, hu, hcallback, hcall⟩ := h
  refine ⟨u, (Timers.mem_clearTimeout_id ht).mpr ⟨hu, ?_⟩, hcallback, hcall⟩
  rintro rfl
  exact hne hcallback

/-- What the state has to do with the events that led to it. -/
structure Reached (probes : List Probe) (es : List (Event κ)) (s : Harness κ) : Prop where
  all : s.probes = probes
  calls : CallsOf probes es s.calls s.timers s.results.length
  rows : RowsOf probes es s.results s.cleaned
  armed : s.results.length < s.calls.length → Armed es s.timers s.results.length

variable {s s' : Harness κ}

theorem reached_start (probes : List Probe) :
    Reached (κ := κ) probes [] (Harness.start probes) where
  all := rfl
  calls := callsOf_nil probes
  rows := rowsOf_nil probes
  armed := by simp [Harness.start]

/-- The call that is awaited returns with what the event says. -/
theorem reached_finish (hprobes : s.probes = probes)
    (hcalls : CallsOf probes (es ++ [e]) s.calls s.timers s.results.length)
    (hrows : RowsOf probes es s.results s.cleaned) (hlt : s.results.length < s.calls.length)
    (habout : e.about = some s.results.length) {out : Outcome}
    (hout : e.decides s.results.length = some out) :
    Reached probes (es ++ [e]) (s.finish s.results.length out) := by
  have hwithin : s.results.length < probes.length := Nat.lt_of_lt_of_le hlt hcalls.within
  have hp : probes[s.results.length]? = some probes[s.results.length] :=
    List.getElem?_eq_getElem hwithin
  have hc : s.calls[s.results.length]? = some s.calls[s.results.length] :=
    List.getElem?_eq_getElem hlt
  have hother : ∀ i, s.results.length < i → e.decides i = none := by
    intro i hi
    apply decides_of_about
    rw [habout]
    intro heq
    exact Nat.ne_of_lt hi (Option.some.inj heq)
  have hdecided := hrows.decide hout hp hother
  rw [← hcalls.cleanup _ _ hc] at hdecided
  have hfinish : s.finish s.results.length out =
      { s with
        calls := s.calls.set s.results.length { s.calls[s.results.length] with returned := true }
        cleaned := s.cleaned ++
          (s.calls[s.results.length].cleanup.map (s.results.length, ·)).toList
        results := s.results ++
          [⟨probes[s.results.length].name, probes[s.results.length].note, out⟩] } := by
    rw [Harness.finish, hprobes, hp, hc]
  rw [hfinish]
  refine ⟨hprobes, ?_, hdecided, ?_⟩
  · rw [List.length_append, List.length_singleton]
    exact hcalls.return hc
  · intro hmore
    rw [List.length_append, List.length_singleton, List.length_set] at hmore
    exact absurd hcalls.length_le (Nat.not_le_of_lt hmore)

/-- The race of a call is decided: it is the one that is awaited, or it has returned. -/
theorem reached_race (hprobes : s.probes = probes)
    (hcalls : CallsOf probes (es ++ [e]) s.calls s.timers s.results.length)
    (hrows : RowsOf probes es s.results s.cleaned) (habout : e.about = some i) {out : Outcome}
    (hout : e.decides i = some out)
    (harmed : i ≠ s.results.length → s.results.length < s.calls.length →
      Armed es s.timers s.results.length) :
    Reached probes (es ++ [e]) (s.race i out) := by
  have hi : i < s.calls.length := hcalls.about e (by simp) i habout
  have hc : s.calls[i]? = some s.calls[i] := List.getElem?_eq_getElem hi
  have hreturned := hcalls.returned i _ hc
  simp only [Harness.race, hc]
  by_cases hdone : i < s.results.length
  · rw [if_pos (hreturned.mpr hdone)]
    refine ⟨hprobes, hcalls, hrows.keep ?_, fun hlt => (harmed (by omega) hlt).keep e⟩
    intro j hj
    apply decides_of_about
    rw [habout]
    intro heq
    have := Option.some.inj heq
    omega
  · obtain rfl : i = s.results.length := by
      have := hcalls.length_le
      omega
    rw [if_neg (fun h => hdone (hreturned.mp h))]
    exact reached_finish hprobes hcalls hrows hi habout hout

theorem reached_call (h : Reached probes es s) (heq : s.calls.length = s.results.length)
    (hlt : s.calls.length < probes.length) (now : Nat) (cleanups : List κ)
    (thrown : Option Thrown) (settled : Bool) :
    CallsOf probes (es ++ [.call s.results.length now cleanups thrown])
      (s.await now cleanups settled).calls (s.await now cleanups settled).timers
      s.results.length := by
  have hcalls := h.calls
  rw [← heq] at hcalls ⊢
  exact hcalls.call hlt now cleanups thrown settled

theorem Reached.step (h : Reached probes es s) (hs : s.step e = some s') :
    Reached probes (es ++ [e]) s' := by
  cases e with
  | call i now cleanups thrown =>
    obtain ⟨⟨hcalls, rfl, hlt⟩, hs⟩ := Option.ite_none_right_eq_some.mp hs
    have hnew := reached_call h hcalls.symm (by rw [← hcalls, ← h.all]; exact hlt) now cleanups
      thrown
    cases thrown with
    | some exn =>
      obtain rfl := Option.some.inj hs
      have hawait : s.results.length < (s.await now cleanups true).calls.length := by
        simp [Harness.await, hcalls]
      exact reached_finish (s := s.await now cleanups true) h.all (hnew true) h.rows hawait rfl
        (if_pos rfl)
    | none =>
      obtain rfl := Option.some.inj hs
      refine ⟨h.all, hnew false, h.rows.keep (fun j _ => ?_), fun _ => ?_⟩
      · simp [Event.decides]
      · exact ⟨_, Timers.mem_setTimeout.mpr (.inr rfl), hcalls.symm, now, cleanups,
          by simp [Harness.await], rfl⟩
  | cln i c =>
    simp only [Harness.step] at hs
    split at hs
    · rename_i call hc
      obtain rfl := Option.some.inj hs
      have hset : CallsOf probes (es ++ [.cln i c])
          (s.calls.set i { call with cleanup := some c }) s.timers s.results.length :=
        h.calls.set hc rfl rfl (by simp [lastCleanup_snoc, Event.handed])
      refine ⟨h.all, hset, h.rows.keep fun j _ => rfl, fun hlt => ?_⟩
      exact (h.armed (by simpa using hlt)).keep _
    · cases hs
  | settle i r =>
    simp only [Harness.step] at hs
    split at hs
    · rename_i call hc
      split at hs
      · cases hs
      obtain rfl := Option.some.inj hs
      have hset : CallsOf probes (es ++ [.settle i r])
          (s.calls.set i { call with settled := true }) s.timers s.results.length :=
        h.calls.set hc rfl rfl (by rw [lastCleanup_snoc_of_nil rfl, h.calls.cleanup i call hc])
      have hout : (Event.settle i r : Event κ).decides i = some r.outcome := if_pos rfl
      exact reached_race (e := .settle i r) (s := { s with calls := s.calls.set i _ }) h.all hset
        h.rows rfl hout fun _ hlt => h.armed (by simpa using hlt)
    · cases hs
  | fire t =>
    obtain ⟨ht, hs⟩ := Option.ite_none_right_eq_some.mp hs
    obtain rfl := Option.some.inj hs
    have hlt := h.calls.timers t ht
    have hkeep : CallsOf probes (es ++ [.fire t]) s.calls (s.timers.clearTimeout (some t.id))
        s.results.length :=
      h.calls.keep (fun i hi => Option.some.inj hi ▸ hlt) (fun _ => rfl)
        fun u hu => (Timers.mem_clearTimeout.mp hu).1
    have hout : (Event.fire t : Event κ).decides t.callback = some hang := if_pos rfl
    exact reached_race (e := .fire t)
      (s := { s with timers := s.timers.clearTimeout (some t.id) }) h.all hkeep h.rows rfl hout
      fun hne hawait => (h.armed hawait).fire ht hne
  | uncaught text =>
    obtain rfl := Option.some.inj hs
    have hkeep : CallsOf probes (es ++ [.uncaught text]) s.calls s.timers s.results.length :=
      h.calls.keep (fun i hi => by cases hi) (fun _ => rfl) fun u hu => hu
    exact ⟨h.all, hkeep, h.rows.keep fun j _ => rfl, fun hlt => (h.armed hlt).keep _⟩

theorem reached_of_run (h : Run Harness.step unrestricted (Harness.start probes) es s) :
    Reached probes es s :=
  h.traceInvariant (I := Reached probes) (reached_start probes) fun _ _ _ _ hr _ hs => hr.step hs

/-! ## To the end -/

/-- Nothing is heard of a probe. -/
def Silent (_ : Harness κ) : Event κ → Prop
  | .call _ _ cleanups thrown => cleanups = [] ∧ thrown = none
  | .fire _ => True
  | _ => False

/-- The row of a probe of which nothing is heard. -/
def hangRow (p : Probe) : Row := ⟨p.name, p.note, hang⟩

/-- The timer of the call that is awaited writes the row. -/
theorem Reached.hang (h : Reached probes es s) (hlt : s.results.length < s.calls.length)
    {p : Probe} (hp : probes[s.results.length]? = some p) :
    ∃ t s', s.step (.fire t) = some s' ∧ s'.results = s.results ++ [hangRow p] := by
  obtain ⟨t, ht, hcallback, -⟩ := h.armed hlt
  have hc : s.calls[s.results.length]? = some s.calls[s.results.length] :=
    List.getElem?_eq_getElem hlt
  have hopen : ¬ s.calls[s.results.length].returned = true := by
    rw [h.calls.returned _ _ hc]
    exact Nat.lt_irrefl _
  refine ⟨t, _, if_pos ht, ?_⟩
  rw [hcallback]
  simp only [Harness.race, hc, if_neg hopen, Harness.finish, h.all, hp]
  rfl

/-- The next probe is called, if none is awaited. -/
theorem Reached.called (h : Reached probes es s) (heq : s.calls.length = s.results.length)
    (hlt : s.results.length < probes.length) :
    s.step (.call s.results.length 0 [] none) = some (s.await 0 [] false) :=
  if_pos ⟨heq.symm, rfl, h.all ▸ hlt⟩

/-- One row is written by timers alone. -/
theorem Reached.round (h : Reached probes es s) {p : Probe}
    (hp : probes[s.results.length]? = some p) :
    ∃ es' s', Run Harness.step Silent s es' s' ∧ es'.length ≤ 2 ∧
      Reached probes (es ++ es') s' ∧ s'.results = s.results ++ [hangRow p] := by
  have hlt := (List.getElem?_eq_some_iff.mp hp).1
  rcases Nat.lt_or_ge s.results.length s.calls.length with hawait | hge
  · obtain ⟨t, s', hs, hresults⟩ := h.hang hawait hp
    exact ⟨[.fire t], s', .single trivial hs, by simp, h.step hs, hresults⟩
  · have heq : s.calls.length = s.results.length := Nat.le_antisymm hge h.calls.done_le
    have hcall := h.called heq hlt
    have hnew := h.step hcall
    have hawait : (s.await 0 [] false).results.length < (s.await 0 [] false).calls.length := by
      simp [Harness.await, heq]
    obtain ⟨t, s', hs, hresults⟩ := hnew.hang hawait hp
    refine ⟨[.call s.results.length 0 [] none, .fire t], s', ?_, by simp, ?_, hresults⟩
    · exact .cons ⟨rfl, rfl⟩ hcall (.single trivial hs)
    · simpa using hnew.step hs

theorem Reached.ends (h : Reached probes es s) {n : Nat}
    (hn : probes.length - s.results.length = n) :
    ∃ es' s', Run Harness.step Silent s es' s' ∧ es'.length ≤ 2 * n ∧
      s'.results = s.results ++ (probes.drop s.results.length).map hangRow := by
  induction n generalizing s es with
  | zero =>
    refine ⟨[], s, .refl, Nat.zero_le _, ?_⟩
    rw [List.drop_eq_nil_of_le (by omega), List.map_nil, List.append_nil]
  | succ n ih =>
    have hlt : s.results.length < probes.length := by omega
    obtain ⟨es₁, s₁, hrun₁, hlen₁, hreached, hresults⟩ :=
      h.round (List.getElem?_eq_getElem hlt)
    have hlength : s₁.results.length = s.results.length + 1 := by
      rw [hresults, List.length_append, List.length_singleton]
    obtain ⟨es₂, s₂, hrun₂, hlen₂, hend⟩ := ih hreached (by omega)
    refine ⟨es₁ ++ es₂, s₂, hrun₁.trans hrun₂, ?_, ?_⟩
    · rw [List.length_append]
      omega
    · rw [hend, hlength, hresults, List.append_assoc, List.drop_eq_getElem_cons hlt,
        List.map_cons]
      rfl

/-! ## The file -/

def Result.ofText (s : JsString) : Option Result :=
  if s = js "OK" then some .ok
  else if s = js "HANG" then some .hang
  else if s = js "FAIL" then some .fail
  else none

/-- A row as a reader takes it from the file. -/
def Row.ofJson (v : Json) : Option Row := do
  let name ← v.at_ "name" Json.string?
  let note ← v.at_ "note" Json.string?
  let result ← v.at_ "result" (fun r => r.string?.bind Result.ofText)
  pure ⟨name, note, ⟨result, v.at_ "detail" Json.string?⟩⟩

theorem Row.ofJson_toJson (r : Row) : Row.ofJson r.toJson = some r := by
  obtain ⟨name, note, result, detail⟩ := r
  cases detail <;> cases result <;> rfl

/-- The file holds the rows, whatever their details are. -/
theorem results_capabilitiesText (runtime platform : JsString) (results : List Row) :
    ∃ v, jsonParse (decodeUtf8 (encodeUtf8 (capabilitiesText runtime platform results))) =
        some v ∧ v.at_ "results" (Json.items? Row.ofJson) = some results :=
  ⟨_, jsonParse_indentBytes _ (by decide) (List.forall_mem_singleton.mpr rfl),
    items?_map fun r _ => Row.ofJson_toJson r⟩

/-! ## The matrix -/

/-- **The rows of the matrix.** In whatever order promises are settled, timers fire and cleanups
are registered, row `i` has the name and the note of probe `i`, and says what the first event says
that decides its race; what comes later about a probe changes no row. For each row, in order, the
last cleanup that was registered until the decision has run, once. The file written of the rows is
read back as the rows. -/
theorem matrix_rows (probes : List Probe) (es : List (Event κ)) (s : Harness κ)
    (h : Run Harness.step unrestricted (Harness.start probes) es s)
    (runtime platform : JsString) :
    (∀ i, s.results[i]? = (verdict i es).bind fun out =>
      probes[i]?.map fun p => ⟨p.name, p.note, out⟩) ∧
    s.cleaned = (List.range s.results.length).filterMap (fun i =>
      (lastCleanup i (untilDecided i es)).map (i, ·)) ∧
    ∃ v, jsonParse (decodeUtf8 (encodeUtf8 (capabilitiesText runtime platform s.results))) =
      some v ∧ v.at_ "results" (Json.items? Row.ofJson) = some s.results :=
  have hreached := reached_of_run h
  ⟨hreached.rows.rows, hreached.rows.cleaned, results_capabilitiesText runtime platform s.results⟩

def twoProbes : List Probe :=
  [⟨js "http same-proc localhost", js "hostname resolution"⟩,
    ⟨js "half-close", js "allowHalfOpen: client ends, server writes"⟩]

/-- The first probe is settled and registers a cleanup too late; the second one hangs, and is
settled too late, after the timers of both have fired. -/
def lateEvents : List (Event Nat) :=
  [.call 0 10 [7] none, .cln 0 8, .settle 0 (.resolved none), .cln 0 9, .call 1 4005 [5] none,
    .fire ⟨0, 4010, 0⟩, .fire ⟨1, 8005, 1⟩, .settle 1 (.rejected ⟨none, js "late"⟩)]

theorem results_lateEvents :
    (execute Harness.step unrestricted (Harness.start twoProbes) lateEvents).map
      (fun s => (s.results.map Row.out, s.cleaned)) =
        some ([⟨.ok, some []⟩, hang], [(0, 8), (1, 5)]) := by decide +kernel

theorem matrix_rows_lateEvents :
    ∃ s, Run Harness.step unrestricted (Harness.start twoProbes) lateEvents s ∧
      s.results.map Row.out = [⟨.ok, some []⟩, hang] ∧
      s.results[1]? = (verdict 1 lateEvents).bind (fun out =>
        twoProbes[1]?.map fun p => ⟨p.name, p.note, out⟩) := by
  obtain ⟨s, hs, heq⟩ := Option.map_eq_some_iff.mp results_lateEvents
  have hrun := run_of_execute hs
  exact ⟨s, hrun, congrArg Prod.fst heq, (matrix_rows _ _ _ hrun (js "v20") (js "linux/x64")).1 1⟩

/-- **No probe wedges the matrix.** In every state that can be reached, the timer of the call that
is awaited is armed, for 4000 ms after the call; and without another word of any probe, in two
events for each row that is missing, the rows that are there are completed by rows that say
`HANG`. -/
theorem matrix_ends (probes : List Probe) (es : List (Event κ)) (s : Harness κ)
    (h : Run Harness.step unrestricted (Harness.start probes) es s) :
    (s.results.length < s.calls.length → Armed es s.timers s.results.length) ∧
    ∃ es' s', Run Harness.step Silent s es' s' ∧
      es'.length ≤ 2 * (probes.length - s.results.length) ∧
      s'.results = s.results ++ (probes.drop s.results.length).map hangRow :=
  have hreached := reached_of_run h
  ⟨hreached.armed, hreached.ends rfl⟩

theorem matrix_ends_firstCall :
    ∃ s : Harness Nat, Run Harness.step unrestricted (Harness.start twoProbes)
      [.call 0 10 [] none] s ∧ ∃ es' s', Run Harness.step Silent s es' s' ∧
        es'.length ≤ 4 ∧ s'.results = twoProbes.map hangRow := by
  have hcall : (Harness.start twoProbes : Harness Nat).step (.call 0 10 [] none) =
      some ((Harness.start twoProbes).await 10 [] false) := rfl
  exact ⟨_, .single trivial hcall, (matrix_ends _ _ _ (.single trivial hcall)).2⟩

end NetHarness

end CorpusRunner
