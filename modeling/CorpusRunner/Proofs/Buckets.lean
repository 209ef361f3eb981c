import CorpusRunner.Format

/-!
# Families of tests

A family has a head, alone or with a dash and more behind it, and one bucket. `bucketFor` asks
for the head with its dash, so a test that is named after its module alone goes by its first
word instead; only for `events` the bare name is asked for too (`bucketFor_iff`).
-/

namespace CorpusRunner

/-! ## Names -/

inductive Extension where
  | dotJs
  | dotMjs
  | dotCjs
  deriving DecidableEq, Repr

def Extension.text : Extension → JsString
  | .dotJs => js ".js"
  | .dotMjs => js ".mjs"
  | .dotCjs => js ".cjs"

def testName (body : JsString) (ext : Extension) : JsString :=
  js "test-" ++ body ++ ext.text

/-- What `bucketFor` looks at. -/
def bodyOf (name : JsString) : JsString := stripExtension (stripTestPrefix name)

theorem take_append_sub (s t : JsString) : (s ++ t).take ((s ++ t).length - t.length) = s := by
  rw [List.length_append, Nat.add_sub_cancel, List.take_left]

/-- A text that ends in `.js` ends in neither of the longer ones. -/
theorem endsWith_longer {s p : JsString} (hlen : 3 ≤ p.length) (hp : ¬ js ".js" <:+ p) :
    endsWith (s ++ js ".js") p = false := by
  rw [← Bool.not_eq_true, endsWith_iff]
  intro h
  exact hp (List.suffix_of_suffix_length_le (List.suffix_append _ _) h hlen)

theorem stripExtension_append (body : JsString) (ext : Extension) :
    stripExtension (body ++ ext.text) = body := by
  have hends (t : JsString) : endsWith (body ++ t) t = true :=
    endsWith_iff.mpr (List.suffix_append _ _)
  cases ext with
  | dotJs =>
    have hm : endsWith (body ++ js ".js") (js ".mjs") = false :=
      endsWith_longer (by decide) (by decide)
    have hc : endsWith (body ++ js ".js") (js ".cjs") = false :=
      endsWith_longer (by decide) (by decide)
    simp only [Extension.text, stripExtension, hm, hc, hends, Bool.or_self, Bool.false_eq_true,
      if_false, if_true]
    exact take_append_sub body (js ".js")
  | dotMjs =>
    simp only [Extension.text, stripExtension, hends, Bool.true_or, if_true]
    exact take_append_sub body (js ".mjs")
  | dotCjs =>
    simp only [Extension.text, stripExtension, hends, Bool.or_true, if_true]
    exact take_append_sub body (js ".cjs")

theorem bodyOf_testName (body : JsString) (ext : Extension) :
    bodyOf (testName body ext) = body := by
  have hstart : startsWith (js "test-" ++ body ++ ext.text) (js "test-") = true := by
    rw [startsWith_iff, List.append_assoc]
    exact List.prefix_append _ _
  have hdrop : (js "test-" ++ body ++ ext.text).drop 5 = body ++ ext.text := by
    rw [List.append_assoc]
    exact List.drop_left' rfl
  rw [bodyOf, testName, stripTestPrefix, if_pos hstart, hdrop, stripExtension_append]

/-! ## Heads and words -/

/-- The text is the head, or goes on behind it with a dash. -/
def Extends (head body : JsString) : Prop :=
  ∃ s, body = head ++ s ∧ (s = [] ∨ s.head? = some 0x2D)

theorem extends_iff {head body : JsString} :
    Extends head body ↔ body = head ∨ head ++ js "-" <+: body := by
  constructor
  · intro ⟨s, hbody, hs⟩
    rcases hs with hs | hs
    · left
      rw [hbody, hs, List.append_nil]
    · right
      obtain ⟨t, ht⟩ := List.head?_eq_some_iff.mp hs
      rw [hbody, ht]
      exact ⟨t, by rw [List.append_assoc]; rfl⟩
  · intro h
    rcases h with h | ⟨t, ht⟩
    · exact ⟨[], by rw [h, List.append_nil], .inl rfl⟩
    · exact ⟨js "-" ++ t, by rw [← ht, List.append_assoc], .inr rfl⟩

/-- `[a-z][a-z0-9]*`. -/
def IsIdentifier (id : JsString) : Prop :=
  ∃ c t, id = c :: t ∧ isLower c = true ∧ ∀ x ∈ t, isLowerOrDigit x = true

theorem IsIdentifier.all {id : JsString} (h : IsIdentifier id) :
    ∀ x ∈ id, isLowerOrDigit x = true := by
  obtain ⟨c, t, rfl, hc, ht⟩ := h
  intro x hx
  rcases List.mem_cons.mp hx with rfl | hx
  · simp [isLowerOrDigit, hc]
  · exact ht x hx

/-- Where a word ends the expression stops. -/
theorem takeWhile_extends {id s : JsString} (hid : ∀ x ∈ id, isLowerOrDigit x = true)
    (hs : s = [] ∨ s.head? = some 0x2D) :
    (id ++ s).takeWhile isLowerOrDigit = id ∧ (id ++ s).dropWhile isLowerOrDigit = s := by
  rw [List.takeWhile_append_of_pos hid, List.dropWhile_append_of_pos hid]
  rcases hs with hs | hs
  · simp [hs]
  · obtain ⟨t, ht⟩ := List.head?_eq_some_iff.mp hs
    have hdash : isLowerOrDigit 0x2D = false := by decide
    simp [ht, hdash]

/-- The group is the word that the text extends, if there is one. -/
theorem leadingWord_eq_some {body id : JsString} :
    leadingWord body = some id ↔ IsIdentifier id ∧ Extends id body := by
  constructor
  · intro h
    cases body with
    | nil => cases h
    | cons c rest =>
      rw [leadingWord] at h
      split at h
      · rename_i hword
        simp only [Bool.and_eq_true, Bool.or_eq_true, List.isEmpty_iff, decide_eq_true_eq] at hword
        have hc : isLowerOrDigit c = true := by simp [isLowerOrDigit, hword.1]
        have hid : (c :: rest).takeWhile isLowerOrDigit = id := Option.some.inj h
        rw [← hid]
        refine ⟨⟨c, rest.takeWhile isLowerOrDigit, ?_, hword.1, ?_⟩, _,
          List.takeWhile_append_dropWhile.symm, hword.2⟩
        · rw [List.takeWhile_cons_of_pos hc]
        · intro x hx
          exact List.mem_takeWhile_imp hx
      · cases h
  · intro ⟨hid, s, hbody, hs⟩
    obtain ⟨htake, hdrop⟩ := takeWhile_extends hid.all hs
    obtain ⟨c, t, hct, hc, -⟩ := hid
    have hguard : (isLower c && (s.isEmpty || decide (s.head? = some 0x2D))) = true := by
      simpa [hc] using hs
    have hcons : body = c :: (t ++ s) := by rw [hbody, hct, List.cons_append]
    rw [← hbody, hcons] at htake hdrop
    rw [hcons]
    simp only [leadingWord, hdrop, htake, hguard, if_true]

/-! ## Families -/

/-- The heads that `bucketFor` knows, each with its bucket. -/
def families : List (JsString × JsString) :=
  multiWord.map (fun e => (e.1.dropLast, e.2)) ++
    [(js "worker", js "worker_threads"), (js "event", js "events"), (js "events", js "events")]

theorem worker_mem_families : (js "worker", js "worker_threads") ∈ families := by
  simp [families]

theorem event_mem_families : (js "event", js "events") ∈ families := by
  simp [families]

theorem events_mem_families : (js "events", js "events") ∈ families := by
  simp [families]

theorem dashed_of_multiWord : ∀ e ∈ multiWord,
    ∃ f ∈ families, f.1 ++ js "-" = e.1 ∧ f.2 = e.2 := by
  decide +kernel

theorem multiWord_or_of_families : ∀ f ∈ families,
    (∃ e ∈ multiWord, f.1 ++ js "-" = e.1) ∨ f.1 = js "worker" ∨ f.1 = js "event" ∨
      f.1 = js "events" := by
  decide +kernel

/-- Heads of which one goes on as the other have one bucket. -/
theorem bucket_eq_of_longer : ∀ f ∈ families, ∀ g ∈ families,
    f.1 ++ js "-" <+: g.1 ++ js "-" → f.2 = g.2 := by
  decide +kernel

theorem head_eq_of_underscored : ∀ f ∈ families, ∀ g ∈ families,
    0x5F ∈ f.2 → g.2 = f.2 → g.1 = f.1 := by
  decide +kernel

theorem bucket_eq_of_dashed {f g : JsString × JsString} {body : JsString} (hf : f ∈ families)
    (hg : g ∈ families) (hfb : f.1 ++ js "-" <+: body) (hgb : g.1 ++ js "-" <+: body) :
    f.2 = g.2 := by
  rcases List.prefix_or_prefix_of_prefix hfb hgb with h | h
  · exact bucket_eq_of_longer f hf g hg h
  · exact (bucket_eq_of_longer g hg f hf h).symm

/-- Where a body goes: by a head with its dash, by the one bare name, or by its first word. -/
inductive Goes (body : JsString) : JsString → Prop
  | dashed (f : JsString × JsString) (hf : f ∈ families) (h : f.1 ++ js "-" <+: body) :
      Goes body f.2
  | bare (h : body = js "events") : Goes body (js "events")
  | word (hno : ∀ f ∈ families, ¬ f.1 ++ js "-" <+: body) (hbare : body ≠ js "events") :
      Goes body ((leadingWord body).getD (js "_misc"))

theorem bucketFor_goes (name : JsString) : Goes (bodyOf name) (bucketFor name) := by
  have hbody : stripExtension (stripTestPrefix name) = bodyOf name := rfl
  unfold bucketFor
  simp only [hbody]
  generalize bodyOf name = body
  split
  · rename_i e he
    have hstart : startsWith body e.1 = true :=
      List.find?_some (p := fun e : JsString × JsString => startsWith body e.1) he
    obtain ⟨f, hf, hhead, hbucket⟩ := dashed_of_multiWord e (List.mem_of_find?_eq_some he)
    rw [← hbucket]
    exact .dashed f hf (hhead ▸ startsWith_iff.mp hstart)
  · rename_i hnone
    have hmulti : ∀ e ∈ multiWord, ¬ e.1 <+: body := by
      intro e he hprefix
      exact List.find?_eq_none.mp hnone e he (startsWith_iff.mpr hprefix)
    split
    · rename_i h
      simp only [Bool.or_eq_true, startsWith_iff, decide_eq_true_eq, or_assoc] at h
      rcases h with h | h | h
      · exact .dashed (js "event", js "events") event_mem_families h
      · exact .dashed (js "events", js "events") events_mem_families h
      · exact .bare h
    · rename_i h
      simp only [Bool.or_eq_true, startsWith_iff, decide_eq_true_eq, not_or, and_assoc] at h
      obtain ⟨hevent, hevents, hbare⟩ := h
      split
      · rename_i hworker
        exact .dashed (js "worker", js "worker_threads") worker_mem_families
          (startsWith_iff.mp hworker)
      · rename_i hworker
        rw [startsWith_iff] at hworker
        refine .word ?_ hbare
        intro f hf hprefix
        rcases multiWord_or_of_families f hf with ⟨e, he, hhead⟩ | h | h | h
        · exact hmulti e he (hhead ▸ hprefix)
        all_goals rw [h] at hprefix
        · exact hworker hprefix
        · exact hevent hprefix
        · exact hevents hprefix

theorem testName_goes (body : JsString) (ext : Extension) :
    Goes body (bucketFor (testName body ext)) := by
  have hgoes := bucketFor_goes (testName body ext)
  rwa [bodyOf_testName] at hgoes

/-! ## The buckets of a test -/

/-- A family has its bucket, and what belongs to none has its first word. -/
structure BucketRight (body : JsString) (ext : Extension) : Prop where
  family : ∀ f ∈ families, Extends f.1 body → bucketFor (testName body ext) = f.2
  word : (∀ f ∈ families, ¬ Extends f.1 body) → ∀ id, IsIdentifier id → Extends id body →
    bucketFor (testName body ext) = id

theorem bucketFor_family {body : JsString} {ext : Extension} {f : JsString × JsString}
    (hf : f ∈ families) (h : f.1 ++ js "-" <+: body) : bucketFor (testName body ext) = f.2 := by
  have hgoes := testName_goes body ext
  generalize bucketFor (testName body ext) = b at hgoes
  cases hgoes with
  | dashed g hg hprefix => exact bucket_eq_of_dashed hg hf hprefix h
  | bare hbare =>
    have hshort : ∀ f ∈ families, ¬ f.1 ++ js "-" <+: js "events" := by decide +kernel
    exact absurd (hbare ▸ h) (hshort f hf)
  | word hno _ => exact absurd h (hno f hf)

theorem bucketFor_word {body : JsString} {ext : Extension}
    (hno : ∀ f ∈ families, ¬ Extends f.1 body) {id : JsString} (hid : IsIdentifier id)
    (h : Extends id body) : bucketFor (testName body ext) = id := by
  have hgoes := testName_goes body ext
  generalize bucketFor (testName body ext) = b at hgoes
  cases hgoes with
  | dashed g hg hprefix => exact absurd (extends_iff.mpr (.inr hprefix)) (hno g hg)
  | bare hbare =>
    exact absurd (extends_iff.mpr (.inl hbare))
      (hno (js "events", js "events") events_mem_families)
  | word _ _ => rw [leadingWord_eq_some.mpr ⟨hid, h⟩, Option.getD_some]

/-- A bare head is lost, save the one that is asked for. -/
theorem bucketFor_bare (ext : Extension) : ∀ f ∈ families,
    bucketFor (testName f.1 ext) = f.2 ↔ f.1 = js "events" := by
  cases ext <;> decide +kernel

theorem not_underscored {body : JsString} {f : JsString × JsString} (hf : f ∈ families)
    (hu : 0x5F ∈ f.2) : (leadingWord body).getD (js "_misc") ≠ f.2 := by
  cases hword : leadingWord body with
  | none =>
    have hmisc : ∀ f ∈ families, js "_misc" ≠ f.2 := by decide +kernel
    exact hmisc f hf
  | some id =>
    rw [Option.getD_some]
    intro heq
    have hlower := (leadingWord_eq_some.mp hword).1.all 0x5F (heq ▸ hu)
    exact absurd hlower (by decide)

/-- Buckets are right but for the tests named after a module of several words, `worker` or
`event` alone, and nothing strays into a bucket with an underscore. -/
theorem bucketFor_iff (body : JsString) (ext : Extension) (name : JsString) :
    (BucketRight body ext ↔ ∀ f ∈ families, body = f.1 → f.1 = js "events") ∧
    ∀ f ∈ families, 0x5F ∈ f.2 → bucketFor name = f.2 → Extends f.1 (bodyOf name) := by
  constructor
  · constructor
    · intro hright f hf hbody
      have hbucket := hright.family f hf (extends_iff.mpr (.inl hbody))
      exact (bucketFor_bare ext f hf).mp (hbody ▸ hbucket)
    · intro hbare
      refine ⟨?_, fun hno id hid h => bucketFor_word hno hid h⟩
      intro f hf h
      rcases extends_iff.mp h with h | h
      · rw [h]
        exact (bucketFor_bare ext f hf).mpr (hbare f hf h)
      · exact bucketFor_family hf h
  · intro f hf hu hbucket
    have hgoes := bucketFor_goes name
    rw [hbucket] at hgoes
    generalize hb : f.2 = b at hgoes
    cases hgoes with
    | dashed g hg hprefix =>
      rw [← head_eq_of_underscored f hf g hg hu hb.symm]
      exact extends_iff.mpr (.inr hprefix)
    | bare _ => exact absurd (hb ▸ hu) (by decide +kernel)
    | word _ _ => exact absurd hb.symm (not_underscored hf hu)

/-- `test-string-decoder.js` is counted under `string`. -/
theorem bucketFor_string_decoder :
    bucketFor (js "test-string-decoder.js") = js "string" ∧
      ¬ ∀ body ext, BucketRight body ext := by
  have hbare : bucketFor (testName (js "string-decoder") .dotJs) = js "string" := by
    decide +kernel
  refine ⟨hbare, ?_⟩
  intro hright
  have hbucket := (hright (js "string-decoder") .dotJs).family
    (js "string-decoder", js "string_decoder") (by decide +kernel) ⟨[], by decide, .inl rfl⟩
  exact absurd (hbare.symm.trans hbucket) (by decide)

end CorpusRunner
