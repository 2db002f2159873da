import ReplayWindow.Proofs.Gate.Threads

/-!
The two looks at a counter. A packet is dropped as soon as the first look refuses
its counter, and this is never too early: no look accepts the counter any more
before the next rewind. A counter that has passed the first look is refused at the
second one only if another packet took it in between, or moved the window past it.
-/

namespace ReplayWindow

open Gate (Call Answer)

/-- The turn has the counter accepted, and this moves the front to it. -/
structure Turn.Advances {ι : Type} (t : Turn ι) (front : Counter) : Prop where
  wins : t.Wins front
  ahead : t.found.last < front
  last_eq : (t.found.perform t.call).gate.last = front

/-- What the verdict of one turn on a counter foretells about that of a later turn,
when the turns `between` the two do not rewind the gate. -/
structure Foretells {ι : Type} (width : UInt64) (c : Counter) (first : Turn ι)
    (between : List (Turn ι)) (second : Turn ι) : Prop where
  stays_refused : ∀ why, first.answer = .verdict (.refused why) →
    ∃ again, second.answer = .verdict (.refused again)
  stays_expired : first.answer = .verdict (.refused .expired) →
    second.answer = .verdict (.refused .expired)
  taken : first.call = .inspect c → first.answer = .verdict .ok →
    second.answer = .verdict (.refused .duplicate) → ∃ s ∈ between, s.Wins c
  overtaken : first.call = .inspect c → first.answer = .verdict .ok →
    second.answer = .verdict (.refused .expired) →
      ∃ s ∈ between, ∃ front, s.Advances front ∧ c.toNat + width.toNat ≤ front.toNat

section Front

variable {ι : Type} {g left : Gate} {turns : List (Turn ι)} {c : Counter}

/-- A turn that moves the front ahead accepts the counter that it moves it to. -/
theorem Turn.advances_of_last_lt {t : Turn ι}
    (hanswer : t.answer = (t.found.perform t.call).answer) (hstays : t.call ≠ .rewind)
    (hmoved : t.found.last < (t.found.perform t.call).gate.last) :
    t.Advances (t.found.perform t.call).gate.last := by
  cases hcall : t.call with
  | inspect d =>
    rw [hcall] at hmoved
    exact absurd hmoved (UInt64.lt_irrefl t.found.last)
  | offer d =>
    rw [hcall] at hmoved hanswer
    by_cases hd : t.found.inspect d = .ok
    · have hlast := Gate.perform_offer_last hd
      by_cases hahead : t.found.last < d
      · rw [if_pos hahead] at hlast
        rw [Gate.perform_offer_answer, hd] at hanswer
        rw [hlast]
        exact ⟨⟨hcall, hanswer⟩, hahead, by rw [hcall, hlast]⟩
      · rw [if_neg hahead] at hlast
        rw [hlast] at hmoved
        exact absurd hmoved (UInt64.lt_irrefl t.found.last)
    · rw [Gate.perform_offer_refused hd] at hmoved
      exact absurd hmoved (UInt64.lt_irrefl t.found.last)
  | rewind => exact absurd hcall hstays

/-- A front that has come to `bound` from below was taken there by one of the turns. -/
theorem Follows.exists_advance (h : Follows g turns left) (hquiet : Quiet turns) {bound : ℕ}
    (hlow : g.last.toNat < bound) (hhigh : bound ≤ left.last.toNat) :
    ∃ t ∈ turns, ∃ front, t.Advances front ∧ bound ≤ front.toNat := by
  induction turns generalizing g with
  | nil =>
    have hleft : left = g := h
    rw [hleft] at hhigh
    omega
  | cons t rest ih =>
    obtain ⟨hfound, hanswer, hrest⟩ := h
    obtain ⟨hstays, hquiet'⟩ := hquiet.of_cons
    subst hfound
    by_cases hreached : bound ≤ (t.found.perform t.call).gate.last.toNat
    · have hmoved : t.found.last < (t.found.perform t.call).gate.last := by
        rw [UInt64.lt_iff_toNat_lt]
        omega
      exact ⟨t, List.mem_cons_self, _, Turn.advances_of_last_lt hanswer hstays hmoved, hreached⟩
    · obtain ⟨s, hs, front, hadvances, hfront⟩ := ih hrest hquiet' (by omega)
      exact ⟨s, List.mem_cons_of_mem t hs, front, hadvances, hfront⟩

end Front

section Looks

variable {ι : Type} {g left : Gate} {turns : List (Turn ι)} {known : Finset Counter} {c : Counter}

theorem Follows.wins_of_duplicate (h : Follows g turns left) (hquiet : Quiet turns)
    (hg : g.Tracks known) (hok : g.inspect c = .ok)
    (hduplicate : left.inspect c = .refused .duplicate) : ∃ t ∈ turns, t.Wins c := by
  obtain ⟨later, htracks, hmem⟩ := h.tracks_wins hquiet hg
  have hnew := ((hg.inspect_ok_iff c).mp hok).2
  have hlater := ((htracks.inspect_duplicate_iff c).mp hduplicate).2
  exact ((hmem c).mp hlater).resolve_left hnew

theorem Follows.advance_of_expired (h : Follows g turns left) (hquiet : Quiet turns)
    (hg : g.Tracks known) (hok : g.inspect c = .ok)
    (hexpired : left.inspect c = .refused .expired) :
    ∃ t ∈ turns, ∃ front, t.Advances front ∧ c.toNat + g.width.toNat ≤ front.toNat := by
  obtain ⟨later, htracks, _⟩ := h.tracks_wins hquiet hg
  -- the front was less than a width past the counter, and no longer is
  have hlow : g.last.toNat < c.toNat + g.width.toNat := by
    have hlive := ((hg.inspect_ok_iff c).mp hok).1
    rw [Bool.eq_false_iff, Ne, Gate.isExpired_iff] at hlive
    exact Nat.not_le.mp hlive
  have hhigh : c.toNat + g.width.toNat ≤ left.last.toNat := by
    have hlate := (htracks.inspect_expired_iff c).mp hexpired
    rwa [Gate.isExpired_iff, h.width] at hlate
  exact h.exists_advance hquiet hlow hhigh

theorem Follows.foretells {between : List (Turn ι)} {first second : Turn ι}
    (h : Follows g (first :: between) second.found) (hquiet : Quiet (first :: between))
    (hg : g.Tracks known) (hfirst : first.answer = .verdict (g.inspect c))
    (hsecond : second.answer = .verdict (second.found.inspect c)) :
    Foretells g.width c first between second := by
  have hsame : first.call = .inspect c → Follows g between second.found := by
    intro hinspect
    have hrest := h.2.2
    rwa [hinspect] at hrest
  have hquiet' := hquiet.of_cons.2
  constructor
  case stays_refused =>
    intro why hwhy
    rw [hfirst] at hwhy
    obtain ⟨again, hagain, _⟩ := h.inspect_refused hquiet hg (Answer.verdict.inj hwhy)
    exact ⟨again, by rw [hsecond, hagain]⟩
  case stays_expired =>
    intro hexpired
    rw [hfirst] at hexpired
    obtain ⟨again, hagain, hstays⟩ := h.inspect_refused hquiet hg (Answer.verdict.inj hexpired)
    rw [hsecond, hagain, hstays rfl]
  case taken =>
    intro hinspect hok hduplicate
    rw [hfirst] at hok
    rw [hsecond] at hduplicate
    exact (hsame hinspect).wins_of_duplicate hquiet' hg (Answer.verdict.inj hok)
      (Answer.verdict.inj hduplicate)
  case overtaken =>
    intro hinspect hok hexpired
    rw [hfirst] at hok
    rw [hsecond] at hexpired
    exact (hsame hinspect).advance_of_expired hquiet' hg (Answer.verdict.inj hok)
      (Answer.verdict.inj hexpired)

end Looks

/-- Under every schedule, a counter once refused is refused until the next rewind,
and one that passed a first look is lost only to a winner or to the moving window. -/
theorem first_look_is_final {ι : Type} [DecidableEq ι] (width : UInt64)
    (programs : ι → List Call) (schedule : List ι) {before between after : List (Turn ι)}
    {first second : Turn ι} {c : Counter}
    (hturns : ((Threads.start (Gate.ofWidth width) programs).run schedule).turns =
      before ++ first :: (between ++ second :: after))
    (hquiet : Quiet between) (hfirst : first.call.Asks c) (hsecond : second.call.Asks c) :
    Foretells width c first between second := by
  have h := Threads.start_run_follows (Gate.ofWidth width) programs schedule
  rw [hturns] at h
  obtain ⟨hbefore, hfirstAnswer, hlater⟩ := h.split
  obtain ⟨hbetween, hsecondAnswer, _⟩ := hlater.split
  obtain ⟨known, htracks⟩ := hbefore.tracks (Gate.tracks_ofWidth width)
  have hwidth : first.found.width = width := hbefore.width
  rw [Gate.perform_answer_of_asks _ hfirst] at hfirstAnswer
  rw [Gate.perform_answer_of_asks _ hsecond] at hsecondAnswer
  have hfrom : Follows first.found (first :: between) second.found :=
    ⟨rfl, by rw [hfirstAnswer, Gate.perform_answer_of_asks _ hfirst], hbetween⟩
  have hforetells :=
    hfrom.foretells (hquiet.cons hfirst.ne_rewind) htracks hfirstAnswer hsecondAnswer
  rwa [hwidth] at hforetells

/-- One thread looks at counter 3, and before its second look the other thread moves
the window past it. -/
theorem first_look_of_two_threads :
    let programs : Bool → List Call := fun i => if i then [.offer 9] else [.inspect 3, .offer 3]
    let turns := ((Threads.start (Gate.ofWidth 4) programs).run [false, true, false]).turns
    let first : Turn Bool := ⟨false, .inspect 3, Gate.ofWidth 4, .verdict .ok⟩
    let mover : Turn Bool := ⟨true, .offer 9, Gate.ofWidth 4, .verdict .ok⟩
    let second : Turn Bool :=
      ⟨false, .offer 3, ((Gate.ofWidth 4).perform (.offer 9)).gate, .verdict (.refused .expired)⟩
    turns = [] ++ first :: ([mover] ++ second :: []) ∧ Quiet [mover] ∧
      first.call.Asks 3 ∧ second.call.Asks 3 ∧ Foretells 4 3 first [mover] second := by
  have hquiet : Quiet
      [(⟨true, .offer 9, Gate.ofWidth 4, .verdict .ok⟩ : Turn Bool)] := by decide
  refine ⟨rfl, hquiet, Or.inl rfl, Or.inr rfl, ?_⟩
  exact first_look_is_final 4 (fun i => if i then [.offer 9] else [.inspect 3, .offer 3])
    [false, true, false] (show _ = [] ++ _ :: ([_] ++ _ :: []) from rfl) hquiet
    (Or.inl rfl) (Or.inr rfl)

end ReplayWindow
