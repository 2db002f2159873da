import ReplayWindow.Gate.Basic
import ReplayWindow.Proofs.Ring.History

/-!
The verdicts of a gate. A counter is refused as expired exactly if it is behind
the window, and as a duplicate exactly if it is not and was offered before. A
refusal leaves the gate as it is, so the gate tracks the counters offered to it
as well as those it has accepted.
-/

namespace ReplayWindow.Gate

/-- The counters offered since the last rewind, after one more call. -/
def Call.offered (known : Finset Counter) : Call → Finset Counter
  | .inspect _ => known
  | .offer counter => insert counter known
  | .rewind => ∅

/-- The caller asks about the counter and gets a verdict on it. -/
def Call.Asks (call : Call) (c : Counter) : Prop := call = .inspect c ∨ call = .offer c

theorem Call.Asks.ne_rewind {call : Call} {c : Counter} (h : call.Asks c) : call ≠ .rewind := by
  rcases h with hcall | hcall
  · simp [hcall]
  · simp [hcall]

def Tracks (g : Gate) (known : Finset Counter) : Prop := g.window.Tracks known

variable {g : Gate} {known : Finset Counter}

theorem tracks_ofWidth (width : UInt64) : (ofWidth width).Tracks ∅ :=
  (Ring.holds_ofWidth width).tracks

/-- A counter is behind the window when the front is a whole width past it. -/
theorem isExpired_iff (g : Gate) (c : Counter) :
    g.window.isExpired c = true ↔ c.toNat + g.width.toNat ≤ g.last.toNat := by
  rw [Ring.isExpired_iff]
  unfold width last
  omega

theorem Tracks.accepts_iff (h : g.Tracks known) (c : Counter) :
    g.window.accepts c = true ↔ g.window.isExpired c = false ∧ c ∉ known :=
  Window.accepts_iff_new (W := Ring) h c

theorem Tracks.inspect_eq (h : g.Tracks known) (c : Counter) :
    g.inspect c =
      if g.window.isExpired c = true then .refused .expired
      else if c ∈ known then .refused .duplicate else .ok := by
  have haccepts := h.accepts_iff c
  unfold inspect
  by_cases hexpired : g.window.isExpired c = true
  · have hrefused : ¬ g.window.accepts c = true := by
      rw [haccepts, hexpired]
      simp
    rw [if_neg hrefused, if_pos hexpired, if_pos hexpired]
  · rw [if_neg hexpired, if_neg hexpired]
    by_cases hmem : c ∈ known
    · have hrefused : ¬ g.window.accepts c = true := by
        rw [haccepts]
        exact fun hok => hok.2 hmem
      rw [if_neg hrefused, if_pos hmem]
    · have hok : g.window.accepts c = true :=
        haccepts.mpr ⟨Bool.eq_false_iff.mpr hexpired, hmem⟩
      rw [if_pos hok, if_neg hmem]

theorem Tracks.inspect_ok_iff (h : g.Tracks known) (c : Counter) :
    g.inspect c = .ok ↔ g.window.isExpired c = false ∧ c ∉ known := by
  rw [h.inspect_eq c]
  cases g.window.isExpired c <;> by_cases hmem : c ∈ known <;> simp [hmem]

theorem Tracks.inspect_expired_iff (h : g.Tracks known) (c : Counter) :
    g.inspect c = .refused .expired ↔ g.window.isExpired c = true := by
  rw [h.inspect_eq c]
  cases g.window.isExpired c <;> by_cases hmem : c ∈ known <;> simp [hmem]

theorem Tracks.inspect_duplicate_iff (h : g.Tracks known) (c : Counter) :
    g.inspect c = .refused .duplicate ↔ g.window.isExpired c = false ∧ c ∈ known := by
  rw [h.inspect_eq c]
  cases g.window.isExpired c <;> by_cases hmem : c ∈ known <;> simp [hmem]

/-- A known counter is a duplicate until the window has left it behind. -/
theorem Tracks.inspect_of_mem (h : g.Tracks known) {c : Counter} (hc : c ∈ known) :
    c ≤ g.last ∧ g.inspect c =
      .refused (if g.last.toNat - c.toNat < g.width.toNat then .duplicate else .expired) := by
  have hle : c ≤ g.last := (Ring.Tracks.isFront h).le hc
  have hexpired : g.window.isExpired c = true ↔
      ¬ g.last.toNat - c.toNat < g.width.toNat := by
    have hle' := UInt64.le_iff_toNat_le.mp hle
    rw [Ring.isExpired_iff]
    show c.toNat ≤ g.last.toNat ∧ g.width.toNat ≤ g.last.toNat - c.toNat ↔ _
    omega
  refine ⟨hle, ?_⟩
  rw [h.inspect_eq c, if_pos hc]
  by_cases hnear : g.last.toNat - c.toNat < g.width.toNat
  · rw [if_neg (fun hout => hexpired.mp hout hnear), if_pos hnear]
  · rw [if_pos (hexpired.mpr hnear), if_neg hnear]

section Perform

theorem perform_offer_answer (g : Gate) (c : Counter) :
    (g.perform (.offer c)).answer = .verdict (g.inspect c) := by
  show Answer.verdict (g.offer c).answer = _
  unfold offer
  cases g.inspect c <;> rfl

theorem perform_answer_of_asks (g : Gate) {call : Call} {c : Counter} (hc : call.Asks c) :
    (g.perform call).answer = .verdict (g.inspect c) := by
  rcases hc with hinspect | hoffer
  · rw [hinspect]
    rfl
  · rw [hoffer]
    exact perform_offer_answer g c

theorem perform_offer_ok {c : Counter} (hc : g.inspect c = .ok) :
    (g.perform (.offer c)).gate = ⟨g.window.record c⟩ := by
  show (g.offer c).gate = _
  unfold offer
  rw [hc]

theorem perform_offer_refused {c : Counter} (hc : g.inspect c ≠ .ok) :
    (g.perform (.offer c)).gate = g := by
  show (g.offer c).gate = _
  unfold offer
  cases hv : g.inspect c with
  | ok => exact absurd hv hc
  | refused why => rfl

theorem perform_offer_last {c : Counter} (hc : g.inspect c = .ok) :
    (g.perform (.offer c)).gate.last = if g.last < c then c else g.last := by
  rw [perform_offer_ok hc]
  exact Ring.record_last g.window c

theorem perform_offer_ok_events {c : Counter} (hc : g.inspect c = .ok) :
    (g.perform (.offer c)).events =
      (if g.last < c then [Event.advanced g.last c] else []) ++ [.accepted c] := by
  show (g.offer c).events = _
  unfold offer
  rw [hc]

theorem perform_offer_refused_events {c : Counter} {why : Refusal}
    (hc : g.inspect c = .refused why) :
    (g.perform (.offer c)).events = [Event.refused c why] := by
  show (g.offer c).events = _
  unfold offer
  rw [hc]

theorem perform_width (g : Gate) (call : Call) : (g.perform call).gate.width = g.width := by
  cases call with
  | inspect c => rfl
  | offer c =>
    by_cases hc : g.inspect c = .ok
    · rw [perform_offer_ok hc]
      exact Ring.record_width g.window c
    · rw [perform_offer_refused hc]
  | rewind => rfl

/-- Only a rewind takes the front back. -/
theorem last_le_perform_last (g : Gate) {call : Call} (hcall : call ≠ .rewind) :
    g.last.toNat ≤ (g.perform call).gate.last.toNat := by
  cases call with
  | inspect c => exact Nat.le_refl _
  | offer c =>
    by_cases hc : g.inspect c = .ok
    · rw [perform_offer_ok hc]
      exact Ring.last_le_record_last g.window c
    · rw [perform_offer_refused hc]
  | rewind => exact absurd rfl hcall

/-- A rewound gate is a new one. -/
theorem Tracks.perform_rewind (h : g.Tracks known) :
    (g.perform .rewind).gate = ofWidth g.width := by
  obtain ⟨recorded, hholds, _, _⟩ := h
  exact congrArg Gate.mk hholds.fits.reset_eq

theorem Tracks.perform_offer_ok (h : g.Tracks known) {c : Counter} (hc : g.inspect c = .ok) :
    (g.perform (.offer c)).gate.Tracks (insert c known) := by
  rw [Gate.perform_offer_ok hc]
  exact Ring.Tracks.record h c

/-- A refused counter may as well count as known: it is known already, or it is
behind the window for good. -/
theorem Tracks.insert_refused (h : g.Tracks known) {c : Counter} (hc : g.inspect c ≠ .ok) :
    g.Tracks (insert c known) := by
  rw [h.inspect_eq c] at hc
  obtain ⟨recorded, hholds, hsub, hlate⟩ := h
  refine ⟨recorded, hholds, hsub.trans (Finset.subset_insert c known), ?_⟩
  intro d hd hnew
  rcases Finset.mem_insert.mp hd with hdc | hold
  · subst hdc
    by_cases hexpired : g.window.isExpired d = true
    · exact hexpired
    · by_cases hmem : d ∈ known
      · exact hlate d hmem hnew
      · rw [if_neg hexpired, if_neg hmem] at hc
        exact absurd rfl hc
  · exact hlate d hold hnew

theorem Tracks.perform (h : g.Tracks known) (call : Call) :
    (g.perform call).gate.Tracks (call.offered known) := by
  cases call with
  | inspect c => exact h
  | offer c =>
    by_cases hc : g.inspect c = .ok
    · exact h.perform_offer_ok hc
    · rw [perform_offer_refused hc]
      exact h.insert_refused hc
  | rewind =>
    rw [h.perform_rewind]
    exact tracks_ofWidth g.width

end Perform

theorem performEach_append (g : Gate) (earlier later : List Call) :
    g.performEach (earlier ++ later) =
      ((g.performEach earlier).1 ++ ((g.performEach earlier).2.performEach later).1,
        ((g.performEach earlier).2.performEach later).2) := by
  induction earlier generalizing g with
  | nil => rfl
  | cons call rest ih =>
    have hrest := ih (g.perform call).gate
    simp only [List.cons_append, performEach, hrest]

theorem performEach_length (g : Gate) (calls : List Call) :
    (g.performEach calls).1.length = calls.length := by
  induction calls generalizing g with
  | nil => rfl
  | cons call rest ih => exact congrArg (· + 1) (ih (g.perform call).gate)

theorem performEach_width (g : Gate) (calls : List Call) :
    (g.performEach calls).2.width = g.width := by
  induction calls generalizing g with
  | nil => rfl
  | cons call rest ih => exact (ih (g.perform call).gate).trans (perform_width g call)

theorem performEach_drop (g : Gate) (earlier later : List Call) :
    (g.performEach (earlier ++ later)).1.drop earlier.length =
      ((g.performEach earlier).2.performEach later).1 := by
  rw [performEach_append, ← performEach_length g earlier, List.drop_left]

/-- The gate is what some calls have left of a new one. -/
def Reachable (g : Gate) : Prop :=
  ∃ width calls, ((ofWidth width).performEach calls).2 = g

theorem Tracks.performEach (h : g.Tracks known) (calls : List Call) :
    ∃ later, (g.performEach calls).2.Tracks later := by
  induction calls generalizing g known with
  | nil => exact ⟨known, h⟩
  | cons call rest ih => exact ih (h.perform call)

theorem Reachable.tracks (h : g.Reachable) : ∃ known, g.Tracks known := by
  obtain ⟨width, calls, hg⟩ := h
  rw [← hg]
  exact (tracks_ofWidth width).performEach calls

end ReplayWindow.Gate
