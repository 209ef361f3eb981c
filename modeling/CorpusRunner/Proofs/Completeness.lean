import CorpusRunner.Proofs.PoisonCycle
import CorpusRunner.Proofs.Termination

/-!
# Completeness of a sweep

`after` is read before the harvest appends its crash mark, so a cycle that steps over a
wedging test counts as one without progress. The sweep comes to its end for every schedule if
and only if no such cycles follow each other up to the limit: let `hit i` say that a wedging
test is among the `concurrency` tests from position `i` on; then not all of the first
`MAX_NOPROGRESS` positions are hit, and no `MAX_NOPROGRESS + 1` successive ones.
-/

namespace CorpusRunner

/-- A test of `W` is among the `c` tests from position `i` on. -/
def hit (W : Finset JsString) (c : Nat) (l : List JsString) (i : Nat) : Prop :=
  ∃ t ∈ (l.drop i).take c, t ∈ W

instance (W : Finset JsString) (c : Nat) (l : List JsString) (i : Nat) :
    Decidable (hit W c l i) := by
  unfold hit
  infer_instance

/-- The condition on what remains under which every sweep comes to its end. -/
def Passable (W : Finset JsString) (c m : Nat) (l : List JsString) : Prop :=
  (∃ i < m, ¬ hit W c l i) ∧ ∀ s, ∃ i ≤ m, ¬ hit W c l (s + i)

theorem hit_drop {W : Finset JsString} {c : Nat} {l : List JsString} {i j : Nat} :
    hit W c (l.drop j) i ↔ hit W c l (j + i) := by
  simp only [hit, List.drop_drop]

theorem hit_zero_of_mem {W : Finset JsString} {c : Nat} {l : List JsString} {t : JsString}
    (h : t ∈ l.take c) (hW : t ∈ W) : hit W c l 0 := ⟨t, by simpa using h, hW⟩

/-- An element is in every window that starts less than `c` before it. -/
theorem hit_of_drop {W : Finset JsString} {c : Nat} {l tl : List JsString} {t : JsString}
    {i p : Nat} (h : l.drop p = t :: tl) (hW : t ∈ W) (hle : i ≤ p) (hlt : p < i + c) :
    hit W c l i := by
  refine ⟨t, ?_, hW⟩
  have hp : l[p]? = some t := by
    have := congrArg (fun l => l[0]?) h
    simpa using this
  refine List.mem_iff_getElem?.mpr ⟨p - i, ?_⟩
  rw [List.getElem?_take_of_lt (by omega), List.getElem?_drop, show i + (p - i) = p by omega]
  exact hp

theorem lt_length_of_hit {W : Finset JsString} {c : Nat} {l : List JsString} {i : Nat}
    (h : hit W c l i) : i < l.length := by
  obtain ⟨t, ht, -⟩ := h
  have hne : l.drop i ≠ [] := fun hnil => by simp [hnil] at ht
  by_contra hle
  exact hne (List.drop_eq_nil_of_le (by omega))

theorem not_hit_nil {W : Finset JsString} {c i : Nat} : ¬ hit W c [] i := fun h =>
  absurd (lt_length_of_hit h) (by simp)

/-- A sweep that has nothing to do hits nothing. -/
theorem passable_nil {W : Finset JsString} {c m : Nat} (hm : 0 < m) : Passable W c m [] :=
  ⟨⟨0, hm, not_hit_nil⟩, fun _ => ⟨0, Nat.zero_le m, not_hit_nil⟩⟩

/-! ## What remains at the tops of the loop -/

/-- What remains of `l` after `n` cycles without growth: the positions since then were hit, and
after a cycle with growth at least one more position was, that of its own mark. -/
inductive Ahead (W : Finset JsString) (c : Nat) (l : List JsString) (n : Nat) :
    List JsString → Prop
  | nothing : Ahead W c l n []
  | start (h : ∀ i < n, hit W c l i) : Ahead W c l n (l.drop n)
  | resumed {F : List JsString} {q s : Nat} (hF : F.length ≤ c)
      (hq : s + n + 1 + F.length ≤ q) (h : ∀ i, s ≤ i → i < q → hit W c l i) :
      Ahead W c l n (F ++ l.drop q)

theorem Ahead.front {W : Finset JsString} {c : Nat} {l R : List JsString} {n : Nat}
    (h : Ahead W c l n R) (hne : R ≠ []) :
    ∃ F q, R = F ++ l.drop q ∧ F.length ≤ c ∧ F.length ≤ q := by
  cases h with
  | nothing => exact absurd rfl hne
  | start h => exact ⟨[], n, rfl, Nat.zero_le _, Nat.zero_le _⟩
  | resumed hF hq h => exact ⟨_, _, rfl, hF, by omega⟩

/-- A cycle without growth. -/
theorem Ahead.blocked {W : Finset JsString} {c m : Nat} {l rest : List JsString}
    {n : Nat} {a t : JsString} (h : Ahead W c l n (a :: rest)) (hp : Passable W c m l)
    (ht : t ∈ (a :: rest).take c) (hW : t ∈ W) : n + 1 < m ∧ Ahead W c l (n + 1) rest := by
  obtain ⟨⟨i₀, hi₀, hfree⟩, hgap⟩ := hp
  generalize hR : a :: rest = R at h ht
  cases h with
  | nothing => cases hR
  | start h =>
    have hn : hit W c l n := by
      have := hit_zero_of_mem ht hW
      rwa [hit_drop, Nat.add_zero] at this
    have hall : ∀ i < n + 1, hit W c l i := by
      intro i hi
      rcases Nat.lt_succ_iff_lt_or_eq.mp hi with hi | rfl
      · exact h i hi
      · exact hn
    refine ⟨?_, ?_⟩
    · by_contra hle
      exact hfree (hall i₀ (by omega))
    · have : rest = l.drop (n + 1) := by
        rw [← List.tail_drop, ← hR, List.tail_cons]
      rw [this]
      exact .start hall
  | @resumed F q s hF hq h =>
    obtain ⟨j, hj, hjfree⟩ := hgap s
    cases F with
    | cons f F =>
      rw [List.cons_append, List.cons.injEq] at hR
      rw [List.length_cons] at hF hq
      refine ⟨?_, ?_⟩
      · by_contra hle
        exact hjfree (h _ (by omega) (by omega))
      · rw [hR.2]
        exact .resumed (by omega) (by omega) h
    | nil =>
      have hn : hit W c l q := by
        have := hit_zero_of_mem ht hW
        rwa [List.nil_append, hit_drop, Nat.add_zero] at this
      have hall : ∀ i, s ≤ i → i < q + 1 → hit W c l i := by
        intro i hs hi
        rcases Nat.lt_succ_iff_lt_or_eq.mp hi with hi | rfl
        · exact h i hs hi
        · exact hn
      rw [List.length_nil] at hq
      refine ⟨?_, ?_⟩
      · by_contra hle
        exact hjfree (hall _ (by omega) (by omega))
      · have : rest = [] ++ l.drop (q + 1) := by
          rw [List.nil_append, ← List.tail_drop, ← List.nil_append (l.drop q), ← hR,
            List.tail_cons]
        rw [this]
        exact .resumed (by simp) (by simp; omega) hall

/-- A cycle with growth. -/
theorem Ahead.worked {W : Finset JsString} {c : Nat} {l R ks tl : List JsString} {n : Nat}
    {t : JsString} (h : Ahead W c l n R) (hW : t ∈ W) (hsuf : t :: tl <:+ R)
    (hlen : c + tl.length + 1 ≤ R.length) (hks : ks.length + 1 ≤ c) :
    Ahead W c l 0 (ks ++ t :: tl).tail := by
  have hne : R ≠ [] := fun hnil => by simp [hnil] at hlen
  obtain ⟨F, q, hR, hFc, hFq⟩ := h.front hne
  -- the wedging test stands behind the tests that were in flight at the start
  have hsuf' : t :: tl <:+ l.drop q := by
    refine List.suffix_of_suffix_length_le hsuf (hR ▸ List.suffix_append F _) ?_
    have : R.length = F.length + (l.drop q).length := by rw [hR, List.length_append]
    simp only [List.length_cons]
    omega
  obtain ⟨pre, hpre⟩ := hsuf'
  have hdrop : l.drop (q + pre.length) = t :: tl := by
    rw [← List.drop_drop, ← hpre, List.drop_left]
  have hcount : R.length = F.length + (pre.length + (tl.length + 1)) := by
    rw [hR, ← hpre]
    simp
  generalize hP : q + pre.length = P at hdrop
  cases ks with
  | nil =>
    have : (([] : List JsString) ++ t :: tl).tail = [] ++ l.drop (P + 1) := by
      rw [← List.tail_drop, hdrop]
      rfl
    rw [this]
    refine .resumed (s := P) (by simp) (by simp) fun i h1 h2 => ?_
    exact hit_of_drop hdrop hW (by omega) (by omega)
  | cons k ks =>
    have : (k :: ks ++ t :: tl).tail = ks ++ l.drop P := by
      rw [hdrop]
      rfl
    rw [this]
    rw [List.length_cons] at hks
    refine .resumed (s := P - ks.length - 1) (by omega) (by omega) fun i h1 h2 => ?_
    exact hit_of_drop hdrop hW (by omega) (by omega)

/-- Between two cycles of a sweep over `l` that meets the condition. -/
structure TopInv (W : Finset JsString) (cfg : Config) (l : List JsString) (s : Sys) : Prop where
  loop : LoopInv cfg s
  limit : Complete cfg s.disk.progress ∨ cfg.concurrency < arrayLimit
  fallen : s.fallen = []
  top : ∀ np, s.pc = some (.top np) → 0 ≤ np ∧
    Ahead W cfg.concurrency.toNat l np.toNat (remaining cfg s.disk.progress)
  broke : ∀ b, s.pc = some (.broke b) → b = false ∧ Complete cfg s.disk.progress

theorem TopInv.cycle {W : Finset JsString} {cfg : Config} {l : List JsString} {s s' : Sys}
    (hm : 1 ≤ cfg.maxNoProgress)
    (hp : Passable W cfg.concurrency.toNat cfg.maxNoProgress.toNat l) (h : TopInv W cfg l s)
    (hc : Cycle (poisoned W) s s') : TopInv W cfg l s' := by
  obtain ⟨es, hrun⟩ := hc.run
  have hl' := h.loop.of_run (fun _ _ => inLoop_of_poisoned) hrun
  obtain ⟨np, hpc⟩ := hc.top fun _ _ => inLoop_of_poisoned
  obtain ⟨h0, hahead⟩ := h.top np hpc
  have hlimit := h.limit.imp_left (h.loop.complete_of_run (fun _ _ => inLoop_of_poisoned) hrun)
  obtain ⟨pc', hpc', hf', heff⟩ := cycle_effect h.limit h.loop h.fallen hpc hc
  have done : ∀ {p}, s'.pc = some p → (∀ n, p = .top n → 0 ≤ n ∧
      Ahead W cfg.concurrency.toNat l n.toNat (remaining cfg s'.disk.progress)) →
      (∀ b, p = .broke b → b = false ∧ Complete cfg s'.disk.progress) → TopInv W cfg l s' := by
    intro p hp htop hbroke
    exact ⟨hl', hlimit, hf', fun n hn => htop n (Option.some.inj (hp.symm.trans hn)),
      fun b hb => hbroke b (Option.some.inj (hp.symm.trans hb))⟩
  generalize hlines : s'.disk.progress = lines' at heff
  rw [hlines] at done
  cases heff with
  | left hall => exact done hpc' (by simp) (by rintro b ⟨⟩; exact ⟨rfl, hall⟩)
  | complete hall =>
    refine done hpc' ?_ (by simp)
    intro n hn
    cases hn
    rw [remaining_eq_nil_iff.mpr hall]
    exact ⟨Int.le_refl 0, .nothing⟩
  | @blocked t note a rest ht hW hrem =>
    rw [hrem] at hahead ht
    obtain ⟨hlt, hnext⟩ := hahead.blocked hp ht hW
    rw [if_neg (by omega)] at hpc'
    refine done hpc' ?_ (by simp)
    intro n hn
    cases hn
    rw [remaining_append_head (r := .crashMark a note) hrem,
      show (np + 1).toNat = np.toNat + 1 by omega]
    exact ⟨by omega, hnext⟩
  | worked hW hsuf hlen hks hrem =>
    refine done hpc' ?_ (by simp)
    intro n hn
    cases hn
    rw [hrem]
    exact ⟨Int.le_refl 0, hahead.worked hW hsuf hlen hks⟩

/-- Something can happen in a sweep until the supervisor has ended. -/
theorem poisoned_enabled {W : Finset JsString} {s : Sys} (hsup : s.sup ≠ none) :
    ∃ t, Steps Sys.step (poisoned W) s t := by
  rcases Sys.progress hsup with ⟨t, ht⟩ | ⟨w, hcur, ⟨e, hr, hs⟩ | hs | ⟨-, hdies, t, -, hs⟩⟩
  · exact ⟨t, .sup 0, trivial, ht⟩
  · refine steps_of_isSome hs ?_
    cases e with
    | claim now => exact Nat.le_of_eq hr.symm
    | settle r => exact hr.elim
    | _ => trivial
  · exact steps_of_isSome hs trivial
  · by_cases hwedged : w.wedged W
    · exact steps_of_isSome hdies ⟨w, by simp [hcur], hwedged⟩
    · refine steps_of_isSome (hs ⟨t, .pass, 0, some 0, none, [], none⟩ rfl) ?_
      intro v hv
      rw [hcur, List.mem_singleton] at hv
      rwa [hv]

/-! ## The claim about a sweep -/

/-- A sweep under the wedging tests `W` ends, with a line for every selected test, and is
aborted only if the last `MAX_NOPROGRESS` cycles have recorded nothing. -/
structure SweepComplete (W : Finset JsString) (cfg : Config) (s : Sys) : Prop where
  finite : Terminates Sys.step (poisoned W) s
  recorded : ∀ es s', Run Sys.step (poisoned W) s es s' →
    (∀ t, ¬ Steps Sys.step (poisoned W) s' t) → s'.sup = none ∧ Complete cfg s'.disk.progress
  aborted : ∀ es s₁ (k : Nat) s₂, Run Sys.step (poisoned W) s es s₁ →
    (k : Int) ≤ cfg.maxNoProgress → Cycles (poisoned W) k s₁ s₂ →
    s₂.pc = some (.broke true) →
    ∀ t, t ∈ CorpusRunner.recorded s₂.disk.progress → t ∈ CorpusRunner.recorded s₁.disk.progress

/-- Under the condition no sweep is aborted, and each comes to its end. -/
theorem sweepComplete_of_passable {W : Finset JsString} {cfg : Config} {lines : List Rec}
    (summary : Option Summary) (startedAt : Int) (clock : Nat) (hc : 1 ≤ cfg.concurrency)
    (hm : 1 ≤ cfg.maxNoProgress) (hlimit : Complete cfg lines ∨ cfg.concurrency < arrayLimit)
    (hp : Passable W cfg.concurrency.toNat cfg.maxNoProgress.toNat (remaining cfg lines)) :
    SweepComplete W cfg (loopEntry cfg lines summary startedAt clock) := by
  have hentry : LoopInv cfg (loopEntry cfg lines summary startedAt clock) := .entry (.inl hc)
  have htop : TopInv W cfg (remaining cfg lines)
      (loopEntry cfg lines summary startedAt clock) := by
    refine ⟨hentry, hlimit, rfl, ?_, by simp [loopEntry, Sys.pc]⟩
    intro np heq
    cases heq
    exact ⟨Int.le_refl 0, .start (by simp)⟩
  have hinv : ∀ {es s}, Run Sys.step (poisoned W) (loopEntry cfg lines summary startedAt clock)
      es s → s.between = true → TopInv W cfg (remaining cfg lines) s := fun hr hb =>
    cycle_induction rfl htop (fun _ _ hI hcy => hI.cycle hm hp hcy) hr hb
  refine ⟨(terminates_loop hentry).mono fun _ _ => inLoop_of_poisoned, ?_, ?_⟩
  · intro es s' hr hstuck
    have hend : s'.sup = none := by
      by_contra hne
      obtain ⟨t, ht⟩ := poisoned_enabled (W := W) hne
      exact hstuck t ht
    refine ⟨hend, ?_⟩
    cases hr with
    | refl => cases hend
    | @snoc es e u _ hru hok hs =>
      obtain ⟨b, hb⟩ := ended_step (inLoop_of_poisoned hok) hs hend
      have hbe : u.between = true := by simp [Sys.between, hb]
      rw [(broke_step hb (inLoop_of_poisoned hok) hs).2]
      exact ((hinv hru hbe).broke b hb).2
  · intro es s₁ k s₂ hr _ hcy hb
    cases k with
    | zero =>
      obtain rfl : s₂ = s₁ := hcy
      exact fun t h => h
    | succ k =>
      have hlast : ∀ k t, TopInv W cfg (remaining cfg lines) t → Cycles (poisoned W) k t s₂ →
          TopInv W cfg (remaining cfg lines) s₂ := by
        intro k
        induction k with
        | zero => rintro t hI rfl; exact hI
        | succ k ih =>
          rintro t hI ⟨u, hcu, hrest⟩
          exact ih u (hI.cycle hm hp hcu) hrest
      obtain ⟨u, hcu, hrest⟩ := hcy
      have hI := hlast k u ((hinv hr hcu.1).cycle hm hp hcu) hrest
      exact absurd (hI.broke true hb).1 (by decide)

end CorpusRunner
