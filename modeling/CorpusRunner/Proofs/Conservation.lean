import CorpusRunner.Format
import CorpusRunner.Lib.LedgerText
import CorpusRunner.Misc.JsonRead

/-!
# What the summary adds up to

The rows of `perBucket` come from one pass over the results, whose last branch takes any
status for a failure; the counters at the top are five filters. They agree, and the counters
add up, exactly when every result has one of the five statuses, and a name that is a string, as
`bucketFor` throws on any other (`conserved_iff`). A `Column` is a number of a row that each
result adds to by itself; the rows' sum of a column is what all results add to it, however they
are spread over the buckets.
-/

namespace CorpusRunner

/-! ## Records as results -/

/-- `status` where it is one of the five. -/
def Status.ofJson (v : Option Json) : Option Status :=
  match v with
  | some (.string s) =>
    [Status.pass, .fail, .timeout, .crash, .skip].find? (fun st => decide (st.text = s))
  | _ => none

/-- An entry of the ledger as the summary reads it; `none` where `bucketFor(r.test)` throws
(`name.replace` is no function of a `test` that is no string). -/
def Json.result (e : Json) : Option Result :=
  match e.member (js "test") with
  | some (.string test) => some { test, status := Status.ofJson (e.member (js "status")) }
  | _ => none

theorem Json.result_eq_some {e : Json} {r : Result} : e.result = some r ↔
    e.member (js "test") = some (.string r.test) ∧
      r.status = Status.ofJson (e.member (js "status")) := by
  obtain ⟨test, status⟩ := r
  unfold result
  split
  · rename_i name hname
    simp [hname, eq_comm]
  · rename_i hnone
    simp only [reduceCtorEq, false_iff, not_and]
    exact fun htest => absurd htest (hnone test)

theorem Status.ofJson_eq_some {v : Option Json} {st : Status} :
    Status.ofJson v = some st ↔ v = some (.string st.text) := by
  constructor
  · intro h
    unfold ofJson at h
    split at h
    · have := List.find?_some h
      simp only [decide_eq_true_eq] at this
      rw [this]
    · cases h
  · intro heq
    subst heq
    cases st <;> decide

theorem Json.exists_result_iff {e : Json} :
    (∃ r, e.result = some r) ↔ ∃ t, e.member (js "test") = some (.string t) := by
  simp only [result_eq_some]
  constructor
  · rintro ⟨r, htest, -⟩
    exact ⟨_, htest⟩
  · rintro ⟨t, htest⟩
    exact ⟨⟨t, _⟩, htest, rfl⟩

/-! ## Columns -/

/-- The results of a bucket. -/
def inBucket (b : JsString) (rs : List Result) : List Result :=
  rs.filter (fun r => decide (bucketFor r.test = b))

/-- The row of a bucket, from its results alone. -/
def bucketAgg (b : JsString) (rs : List Result) : BucketAgg :=
  (inBucket b rs).foldl BucketAgg.add (.new b)

/-- The map that `aggregateByBucket` builds. -/
def bucketsOf (rs : List Result) : JsMap JsString BucketAgg :=
  rs.foldl (fun m r =>
    let b := bucketFor r.test
    m.set b (((m.get? b).getD (BucketAgg.new b)).add r)) .empty

theorem bucketsOf_snoc (rs : List Result) (r : Result) :
    bucketsOf (rs ++ [r]) = (bucketsOf rs).set (bucketFor r.test)
      ((((bucketsOf rs).get? (bucketFor r.test)).getD (.new (bucketFor r.test))).add r) := by
  simp [bucketsOf]

/-- The map holds the row of every bucket that has a result. The induction is on the results:
each changes the row of its own bucket. -/
theorem get?_bucketsOf (rs : List Result) (b : JsString) :
    (bucketsOf rs).get? b = if inBucket b rs = [] then none else some (bucketAgg b rs) := by
  induction rs using List.reverseRecOn with
  | nil => rfl
  | append_singleton rs r ih =>
    rw [bucketsOf_snoc, JsMap.get?_set]
    by_cases hb : b = bucketFor r.test
    · subst hb
      have hin : inBucket (bucketFor r.test) (rs ++ [r]) =
          inBucket (bucketFor r.test) rs ++ [r] := by simp [inBucket]
      have hne : inBucket (bucketFor r.test) (rs ++ [r]) ≠ [] := by simp [hin]
      have hadd : bucketAgg (bucketFor r.test) (rs ++ [r]) =
          (bucketAgg (bucketFor r.test) rs).add r := by
        rw [bucketAgg, hin, List.foldl_append]
        rfl
      rw [if_pos rfl, ih, if_neg hne, hadd]
      by_cases hnil : inBucket (bucketFor r.test) rs = []
      · have hnew : bucketAgg (bucketFor r.test) rs = .new (bucketFor r.test) := by
          rw [bucketAgg, hnil]
          rfl
        rw [if_pos hnil, hnew]
        rfl
      · rw [if_neg hnil]
        rfl
    · have hin : inBucket b (rs ++ [r]) = inBucket b rs := by
        simp [inBucket, Ne.symm hb]
      rw [if_neg hb, ih, bucketAgg, bucketAgg, hin]

/-- A number of a row to which each result adds its own part. -/
structure Column (g : BucketAgg → Nat) (d : Result → Nat) : Prop where
  new : ∀ b, g (.new b) = 0
  add : ∀ a r, g (a.add r) = g a + d r

namespace Column

variable {g : BucketAgg → Nat} {d : Result → Nat}

theorem foldl_add (h : Column g d) (a : BucketAgg) (rs : List Result) :
    g (rs.foldl BucketAgg.add a) = g a + (rs.map d).sum := by
  induction rs generalizing a with
  | nil => simp
  | cons r rs ih =>
    rw [List.foldl_cons, ih, h.add, List.map_cons, List.sum_cons, Nat.add_assoc]

theorem bucketAgg_eq (h : Column g d) (b : JsString) (rs : List Result) :
    g (bucketAgg b rs) = ((inBucket b rs).map d).sum := by
  rw [bucketAgg, h.foldl_add, h.new, Nat.zero_add]

/-- However the results are spread over the buckets. -/
theorem sumValues_eq (h : Column g d) (rs : List Result) :
    (bucketsOf rs).sumValues g = (rs.map d).sum := by
  induction rs using List.reverseRecOn with
  | nil => rfl
  | append_singleton rs r ih =>
    have hset := JsMap.sumValues_set g (bucketsOf rs) (bucketFor r.test)
      ((((bucketsOf rs).get? (bucketFor r.test)).getD (.new (bucketFor r.test))).add r)
    have hold : (((bucketsOf rs).get? (bucketFor r.test)).map g).getD 0 =
        g (((bucketsOf rs).get? (bucketFor r.test)).getD (.new (bucketFor r.test))) := by
      cases (bucketsOf rs).get? (bucketFor r.test) with
      | none => exact (h.new _).symm
      | some a => rfl
    rw [h.add, hold, ih] at hset
    rw [bucketsOf_snoc, List.map_append, List.sum_append, List.map_singleton,
      List.sum_singleton]
    omega

end Column

/-- 1 where the status is `st`. -/
def isStatus (st : Status) (r : Result) : Nat := if r.status = some st then 1 else 0

/-- 1 where the status is none of the five. -/
def isUnknown (r : Result) : Nat := if r.status = none then 1 else 0

/-- A result adds one to the total, and one to one of the counters. -/
theorem BucketAgg.add_eq (a : BucketAgg) (r : Result) :
    a.add r =
      { bucket := a.bucket
        pass := a.pass + isStatus .pass r
        fail := a.fail + (isStatus .fail r + isUnknown r)
        timeout := a.timeout + isStatus .timeout r
        crash := a.crash + isStatus .crash r
        skip := a.skip + isStatus .skip r
        total := a.total + 1
        failingTests := (a.add r).failingTests } := by
  cases h : r.status with
  | none => simp [BucketAgg.add, isStatus, isUnknown, h]
  | some st => cases st <;> simp [BucketAgg.add, isStatus, isUnknown, h]

/-- A result has one of the five statuses or none of them. -/
theorem sum_isStatus_eq_one (r : Result) :
    isStatus .pass r + isStatus .fail r + isStatus .timeout r + isStatus .crash r +
      isStatus .skip r + isUnknown r = 1 := by
  cases h : r.status with
  | none => simp [isStatus, isUnknown, h]
  | some st => cases st <;> simp [isStatus, isUnknown, h]

theorem column_pass : Column BucketAgg.pass (isStatus .pass) where
  new _ := rfl
  add a r := congrArg BucketAgg.pass (a.add_eq r)

theorem column_timeout : Column BucketAgg.timeout (isStatus .timeout) where
  new _ := rfl
  add a r := congrArg BucketAgg.timeout (a.add_eq r)

theorem column_crash : Column BucketAgg.crash (isStatus .crash) where
  new _ := rfl
  add a r := congrArg BucketAgg.crash (a.add_eq r)

theorem column_skip : Column BucketAgg.skip (isStatus .skip) where
  new _ := rfl
  add a r := congrArg BucketAgg.skip (a.add_eq r)

/-- The catch-all: an unknown status counts here. -/
theorem column_fail : Column BucketAgg.fail (fun r => isStatus .fail r + isUnknown r) where
  new _ := rfl
  add a r := congrArg BucketAgg.fail (a.add_eq r)

theorem column_total : Column BucketAgg.total (fun _ => 1) where
  new _ := rfl
  add a r := congrArg BucketAgg.total (a.add_eq r)

theorem sum_isStatus (st : Status) (rs : List Result) :
    (rs.map (isStatus st)).sum = countStatus rs st := by
  induction rs with
  | nil => rfl
  | cons r rs ih =>
    rw [List.map_cons, List.sum_cons, ih]
    by_cases h : r.status = some st
    · simp [countStatus, isStatus, h, Nat.add_comm]
    · simp [countStatus, isStatus, h]

/-- The results that no counter at the top counts. -/
def countUnknown (rs : List Result) : Nat := (rs.map isUnknown).sum

theorem countUnknown_eq_zero {rs : List Result} :
    countUnknown rs = 0 ↔ ∀ r ∈ rs, r.status ≠ none := by
  induction rs with
  | nil => simp [countUnknown]
  | cons r rs ih =>
    have hcons : countUnknown (r :: rs) = isUnknown r + countUnknown rs := rfl
    rw [hcons, Nat.add_eq_zero_iff, ih]
    simp [isUnknown]

/-- The counters at the top, and the results that none of them counts. -/
theorem sum_counts (rs : List Result) :
    countStatus rs .pass + countStatus rs .fail + countStatus rs .timeout +
      countStatus rs .crash + countStatus rs .skip + countUnknown rs = rs.length := by
  simp only [← sum_isStatus, countUnknown]
  induction rs with
  | nil => rfl
  | cons r rs ih =>
    have hone := sum_isStatus_eq_one r
    simp only [List.map_cons, List.sum_cons, List.length_cons]
    omega

/-! ## The rows -/

theorem mem_aggregateByBucket {rs : List Result} {a : BucketAgg} :
    a ∈ aggregateByBucket rs ↔ ∃ b, inBucket b rs ≠ [] ∧ a = bucketAgg b rs := by
  change a ∈ List.insertionSort _ ((bucketsOf rs).entries.map Prod.snd) ↔ _
  rw [List.mem_insertionSort, List.mem_map]
  constructor
  · rintro ⟨⟨b, a'⟩, hmem, rfl⟩
    have hget := JsMap.get?_eq_some.mpr hmem
    rw [get?_bucketsOf] at hget
    split_ifs at hget with hnil
    exact ⟨b, hnil, (Option.some.inj hget).symm⟩
  · rintro ⟨b, hb, rfl⟩
    refine ⟨(b, bucketAgg b rs), ?_, rfl⟩
    apply JsMap.get?_eq_some.mp
    rw [get?_bucketsOf, if_neg hb]

theorem bucket_bucketAgg (b : JsString) (rs : List Result) : (bucketAgg b rs).bucket = b := by
  have key : ∀ (l : List Result) (a : BucketAgg),
      (l.foldl BucketAgg.add a).bucket = a.bucket := by
    intro l
    induction l with
    | nil => exact fun _ => rfl
    | cons r l ih =>
      intro a
      rw [List.foldl_cons, ih, a.add_eq]
  exact key _ _

/-- The five counters of a row add up, whatever the statuses. -/
theorem sum_bucketAgg (b : JsString) (rs : List Result) :
    (bucketAgg b rs).pass + (bucketAgg b rs).fail + (bucketAgg b rs).timeout +
      (bucketAgg b rs).crash + (bucketAgg b rs).skip = (bucketAgg b rs).total := by
  have hsum : Column (fun a => a.pass + a.fail + a.timeout + a.crash + a.skip)
      (fun _ => 1) := by
    refine ⟨fun _ => rfl, fun a r => ?_⟩
    have hone := sum_isStatus_eq_one r
    rw [a.add_eq]
    simp only
    omega
  rw [column_total.bucketAgg_eq, ← hsum.bucketAgg_eq]

theorem total_bucketAgg (b : JsString) (rs : List Result) :
    (bucketAgg b rs).total = (inBucket b rs).length := by
  rw [column_total.bucketAgg_eq]
  simp

/-- A column over the sorted rows. -/
theorem sum_aggregateByBucket {g : BucketAgg → Nat} {d : Result → Nat} (h : Column g d)
    (rs : List Result) : ((aggregateByBucket rs).map g).sum = (rs.map d).sum := by
  have hperm : ((aggregateByBucket rs).map g).Perm (((bucketsOf rs).entries.map Prod.snd).map g) :=
    (List.perm_insertionSort _ _).map g
  rw [hperm.sum_nat, List.map_map, ← h.sumValues_eq]
  rfl

theorem aggregateByBucket_nodup (rs : List Result) :
    ((aggregateByBucket rs).map BucketAgg.bucket).Nodup := by
  have hperm : ((aggregateByBucket rs).map BucketAgg.bucket).Perm
      (((bucketsOf rs).entries.map Prod.snd).map BucketAgg.bucket) :=
    (List.perm_insertionSort _ _).map _
  have hkeys : ((bucketsOf rs).entries.map Prod.snd).map BucketAgg.bucket =
      (bucketsOf rs).keys := by
    rw [List.map_map, JsMap.keys]
    apply List.map_congr_left
    intro p hp
    have hget := JsMap.get?_eq_some.mpr hp
    rw [get?_bucketsOf] at hget
    split_ifs at hget
    rw [Function.comp, ← Option.some.inj hget, bucket_bucketAgg]
  rw [hperm.nodup_iff, hkeys]
  exact (bucketsOf rs).keys_nodup

theorem aggregateByBucket_sorted (rs : List Result) :
    (aggregateByBucket rs).Pairwise (fun a b => localeLe a.bucket b.bucket) := by
  have : Std.Total (fun a b : BucketAgg => localeLe a.bucket b.bucket) :=
    ⟨fun _ _ => Std.Total.total (r := (· ≤ · : List Nat → List Nat → Prop)) _ _⟩
  have : IsTrans BucketAgg (fun a b => localeLe a.bucket b.bucket) :=
    ⟨fun _ _ _ h1 h2 => Std.le_trans (α := List Nat) h1 h2⟩
  exact List.pairwise_insertionSort _ _

/-! ## The summary -/

/-- The numbers of a summary of `results` agree with one another. -/
structure Conserved (results : List Result) (s : Summary) : Prop where
  oneRow : ∀ r ∈ results, ∃! row, row ∈ s.perBucket ∧ row.bucket = bucketFor r.test
  counted : ∀ row ∈ s.perBucket, row.total = (inBucket row.bucket results).length
  distinct : (s.perBucket.map BucketRow.bucket).Nodup
  sorted : s.perBucket.Pairwise (fun a b => localeLe a.bucket b.bucket)
  rows : ∀ row ∈ s.perBucket,
    row.pass + row.fail + row.timeout + row.crash + row.skip = row.total
  top : s.pass + s.fail + s.timeout + s.crash + s.skip = s.totalTests
  pass : s.pass = (s.perBucket.map BucketRow.pass).sum
  fail : s.fail = (s.perBucket.map BucketRow.fail).sum
  timeout : s.timeout = (s.perBucket.map BucketRow.timeout).sum
  crash : s.crash = (s.perBucket.map BucketRow.crash).sum
  skip : s.skip = (s.perBucket.map BucketRow.skip).sum
  total : s.totalTests = (s.perBucket.map BucketRow.total).sum

/-- If every status is known, everything adds up. -/
theorem conserved_of_known {rs : List Result} (h : ∀ r ∈ rs, r.status ≠ none)
    (startedAt finishedAt : Int) : Conserved rs (writeJsonResults rs startedAt finishedAt) := by
  have hzero := countUnknown_eq_zero.mpr h
  have hcol {g : BucketAgg → Nat} {d : Result → Nat} {g' : BucketRow → Nat} (hg : Column g d)
      (hrow : ∀ a : BucketAgg, g' a.row = g a) :
      (((aggregateByBucket rs).map BucketAgg.row).map g').sum = (rs.map d).sum := by
    rw [List.map_map, ← sum_aggregateByBucket hg]
    simp only [Function.comp_def, hrow]
  have hmem : ∀ row ∈ (writeJsonResults rs startedAt finishedAt).perBucket,
      ∃ b, inBucket b rs ≠ [] ∧ row = (bucketAgg b rs).row := by
    intro row hrow
    obtain ⟨a, ha, rfl⟩ := List.mem_map.mp hrow
    obtain ⟨b, hb, rfl⟩ := mem_aggregateByBucket.mp ha
    exact ⟨b, hb, rfl⟩
  have hbucket (b : JsString) : (bucketAgg b rs).row.bucket = b := bucket_bucketAgg b rs
  constructor
  · intro r hr
    have hne : inBucket (bucketFor r.test) rs ≠ [] := by
      apply List.ne_nil_of_mem (a := r)
      simp [inBucket, hr]
    refine ⟨(bucketAgg (bucketFor r.test) rs).row, ⟨?_, hbucket _⟩, ?_⟩
    · exact List.mem_map_of_mem (mem_aggregateByBucket.mpr ⟨_, hne, rfl⟩)
    · intro row hrow
      obtain ⟨b, -, rfl⟩ := hmem row hrow.1
      obtain rfl : b = bucketFor r.test := (hbucket b).symm.trans hrow.2
      rfl
  · intro row hrow
    obtain ⟨b, -, rfl⟩ := hmem row hrow
    rw [hbucket]
    exact total_bucketAgg b rs
  · change (((aggregateByBucket rs).map BucketAgg.row).map BucketRow.bucket).Nodup
    rw [List.map_map]
    exact aggregateByBucket_nodup rs
  · exact List.pairwise_map.mpr (aggregateByBucket_sorted rs)
  · intro row hrow
    obtain ⟨b, -, rfl⟩ := hmem row hrow
    exact sum_bucketAgg b rs
  · have hsum := sum_counts rs
    rw [hzero] at hsum
    exact hsum
  · exact ((hcol column_pass fun _ => rfl).trans (sum_isStatus _ _)).symm
  · have hsplit : (rs.map (fun r => isStatus .fail r + isUnknown r)).sum =
        countStatus rs .fail + countUnknown rs := by
      rw [List.sum_map_add, sum_isStatus]
      rfl
    rw [hzero] at hsplit
    exact ((hcol column_fail fun _ => rfl).trans hsplit).symm
  · exact ((hcol column_timeout fun _ => rfl).trans (sum_isStatus _ _)).symm
  · exact ((hcol column_crash fun _ => rfl).trans (sum_isStatus _ _)).symm
  · exact ((hcol column_skip fun _ => rfl).trans (sum_isStatus _ _)).symm
  · have hlength : (rs.map (fun _ => 1)).sum = rs.length := by simp
    exact ((hcol column_total fun _ => rfl).trans hlength).symm

/-- If everything adds up, every status is known. -/
theorem known_of_conserved {rs : List Result} {startedAt finishedAt : Int}
    (h : Conserved rs (writeJsonResults rs startedAt finishedAt)) :
    ∀ r ∈ rs, r.status ≠ none := by
  apply countUnknown_eq_zero.mp
  have htop : _ = rs.length := h.top
  have hsum := sum_counts rs
  simp only [writeJsonResults] at htop
  omega

/-- The summary is built, and its numbers agree, exactly when every record has a name that is a
string and one of the five statuses. -/
theorem conserved_iff (records : List Json) (startedAt finishedAt : Int) :
    (∃ rs, records.mapM Json.result = some rs ∧
        Conserved rs (writeJsonResults rs startedAt finishedAt)) ↔
      ∀ e ∈ records, (∃ t, e.member (js "test") = some (.string t)) ∧
        ∃ st : Status, e.member (js "status") = some (.string st.text) := by
  constructor
  · rintro ⟨rs, hrs, h⟩ e he
    obtain ⟨r, hr, her⟩ := (mem_of_mapM hrs).1 e he
    obtain ⟨htest, hstatus⟩ := Json.result_eq_some.mp her
    obtain ⟨st, hst⟩ := Option.ne_none_iff_exists'.mp (known_of_conserved h r hr)
    exact ⟨⟨_, htest⟩, st, Status.ofJson_eq_some.mp (hstatus.symm.trans hst)⟩
  · intro h
    obtain ⟨rs, hrs⟩ := exists_mapM fun e he => Json.exists_result_iff.mpr (h e he).1
    refine ⟨rs, hrs, conserved_of_known ?_ startedAt finishedAt⟩
    intro r hr
    obtain ⟨e, he, her⟩ := (mem_of_mapM hrs).2 r hr
    obtain ⟨-, st, hst⟩ := h e he
    rw [(Json.result_eq_some.mp her).2, Status.ofJson_eq_some.mpr hst]
    exact Option.some_ne_none st

/-- A line of a ledger without a status. -/
def noStatus : Json := .object [(js "test", .string (js "test-a.js"))]

/-- The line is read, and the test counts as one failure in its bucket but as none at the
top. -/
theorem conserved_fails_noStatus :
    (readLedgerText (stringify noStatus ++ [10])).get? (js "test-a.js") = some noStatus ∧
      ∃ r, [noStatus].mapM Json.result = some [r] ∧
        (writeJsonResults [r] 0 0).totalTests = 1 ∧ (writeJsonResults [r] 0 0).fail = 0 ∧
        (writeJsonResults [r] 0 0).perBucket.map BucketRow.fail = [1] ∧
        ¬ Conserved [r] (writeJsonResults [r] 0 0) := by
  refine ⟨?_, ⟨js "test-a.js", none⟩, rfl, by decide, by decide, by decide, ?_⟩
  · have hline : readLedgerText ([] ++ (stringify noStatus ++ [10])) =
        readLine (readLedgerText []) (stringify noStatus) :=
      readLedgerText_line (.inl rfl) (newline_notMem_stringify _)
    rw [List.nil_append] at hline
    rw [hline, noStatus, readLine_object _ (t := js "test-a.js") (Json.member_first (by simp))
      (by decide), JsMap.get?_set, if_pos rfl]
  · intro h
    exact absurd h.top (by decide)

end CorpusRunner
