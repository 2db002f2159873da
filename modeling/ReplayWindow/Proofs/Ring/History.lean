import ReplayWindow.Proofs.History
import ReplayWindow.Proofs.Ring.Operations

/-!
The history of a ring. A counter that came too late to be recorded stays behind
the window for ever, so nothing is lost by ignoring it: the highest counter
presented, and membership in the set of all presented counters, determine the
whole visible state.
-/

namespace ReplayWindow.Ring

open Window (Command Answer presented presentedFrom Acceptable)

/-- The ring holds what was presented, apart from counters that came too late. -/
def Tracks (r : Ring) (known : Finset Counter) : Prop :=
  ∃ recorded, r.Holds recorded ∧ recorded ⊆ known ∧
    ∀ c ∈ known, c ∉ recorded → r.isExpired c = true

theorem Holds.tracks {r : Ring} {recorded : Finset Counter} (h : r.Holds recorded) :
    r.Tracks recorded :=
  ⟨recorded, h, Finset.Subset.refl recorded, fun _ hc hnew => absurd hc hnew⟩

variable {r : Ring} {known : Finset Counter}

theorem record_last (r : Ring) (c : Counter) :
    (r.record c).last = if r.last < c then c else r.last := by
  unfold record
  split
  · exact slideTo_last r c
  · split <;> rfl

theorem last_le_record_last (r : Ring) (c : Counter) :
    r.last.toNat ≤ (r.record c).last.toNat := by
  rw [record_last]
  split
  · next hc => exact Nat.le_of_lt (UInt64.lt_iff_toNat_lt.mp hc)
  · exact Nat.le_refl _

theorem isExpired_of_last_le {s : Ring} (hlast : r.last.toNat ≤ s.last.toNat)
    (hwidth : s.width = r.width) {c : Counter} (hc : r.isExpired c = true) :
    s.isExpired c = true := by
  rw [isExpired_iff] at hc ⊢
  rw [hwidth]
  omega

theorem Tracks.isFront (h : r.Tracks known) : IsFront known r.last := by
  obtain ⟨recorded, hholds, hsub, hlate⟩ := h
  constructor
  · rcases hholds.front.1 with hzero | hmem
    · exact Or.inl hzero
    · exact Or.inr (hsub hmem)
  · intro c hc
    rcases hc with hzero | hmem
    · exact hholds.front.2 (Or.inl hzero)
    · by_cases hrec : c ∈ recorded
      · exact hholds.front.2 (Or.inr hrec)
      · exact UInt64.le_iff_toNat_le.mpr ((isExpired_iff r c).mp (hlate c hmem hrec)).1

theorem Tracks.accepts_iff (h : r.Tracks known) (c : Counter) :
    r.accepts c = true ↔ Acceptable r.width r.last known c := by
  obtain ⟨recorded, hholds, hsub, hlate⟩ := h
  rw [hholds.accepts_iff]
  constructor
  · intro hok
    rcases hok with hahead | ⟨hin, hnew⟩
    · exact Or.inl hahead
    · by_cases hahead : r.last < c
      · exact Or.inl hahead
      · refine Or.inr ⟨hin, ?_⟩
        intro hmem
        have hout := ((isExpired_iff r c).mp (hlate c hmem hnew)).2
        omega
  · intro hok
    rcases hok with hahead | ⟨hin, hnew⟩
    · exact Or.inl hahead
    · exact Or.inr ⟨hin, fun hrec => hnew (hsub hrec)⟩

theorem Tracks.record (h : r.Tracks known) (c : Counter) :
    (r.record c).Tracks (insert c known) := by
  obtain ⟨recorded, hholds, hsub, hlate⟩ := h
  have hmono : ∀ d, r.isExpired d = true → (r.record c).isExpired d = true := by
    intro d hd
    exact isExpired_of_last_le (last_le_record_last r c) (record_width r c) hd
  refine ⟨_, hholds.record c, ?_, ?_⟩
  · split
    · exact hsub.trans (Finset.subset_insert c known)
    · exact Finset.insert_subset_insert c hsub
  · intro d hd hnew
    apply hmono
    rcases Finset.mem_insert.mp hd with hdc | hold
    · by_contra hlive
      subst hdc
      rw [if_neg hlive] at hnew
      exact hnew (Finset.mem_insert_self d recorded)
    · apply hlate d hold
      intro hrec
      apply hnew
      split
      · exact hrec
      · exact Finset.mem_insert_of_mem hrec

theorem Tracks.reset (h : r.Tracks known) : r.reset.Tracks ∅ := by
  obtain ⟨recorded, hholds, _, _⟩ := h
  exact hholds.reset.tracks

theorem Tracks.offer_fst (h : r.Tracks known) (c : Counter) :
    (r.offer c).1 = r.accepts c := by
  obtain ⟨recorded, hholds, _, _⟩ := h
  exact hholds.offer_fst c

instance : Window.Faithful Ring where
  Tracks := Tracks
  isFront := Tracks.isFront
  accepts_iff := Tracks.accepts_iff
  offer_fst := Tracks.offer_fst
  tracks_offer h c := by
    show Tracks (Ring.offer _ c).2 _
    rw [offer_snd]
    exact h.record c
  tracks_record := Tracks.record
  tracks_reset := Tracks.reset
  width_offer _ c := by
    show (Ring.offer _ c).2.width = _
    rw [offer_snd]
    exact record_width _ c
  width_record _ := record_width _
  width_reset _ := rfl

/-- Two rings that no user can tell apart, neither now nor by any further commands. -/
structure Alike (r s : Ring) : Prop where
  last_eq : r.last = s.last
  isExpired_eq : ∀ c, r.isExpired c = s.isExpired c
  accepts_eq : ∀ c, r.accepts c = s.accepts c
  offer_eq : ∀ c, (r.offer c).1 = (s.offer c).1
  answers_eq : ∀ commands : List Command, (Window.run r commands).1 = (Window.run s commands).1

theorem Tracks.alike {s : Ring} (hr : r.Tracks known) (hs : s.Tracks known)
    (hwidth : r.width = s.width) : r.Alike s := by
  have hlast : r.last = s.last := hr.isFront.unique hs.isFront
  have haccepts : ∀ c, r.accepts c = s.accepts c :=
    Window.accepts_eq_of_tracks (V := Ring) (W := Ring) hr hs hwidth
  refine ⟨hlast, ?_, haccepts, ?_, ?_⟩
  · intro c
    unfold isExpired
    rw [hlast, hwidth]
  · intro c
    rw [hr.offer_fst, hs.offer_fst, haccepts]
  · exact Window.run_answers_eq (V := Ring) (W := Ring) hr hs hwidth

theorem run_tracks (width : UInt64) (commands : List Command) :
    (Window.run (ofWidth width) commands).2.Tracks (presented commands) ∧
      (Window.run (ofWidth width) commands).2.width = width :=
  ⟨Window.run_tracks (W := Ring) (holds_ofWidth width).tracks commands,
    Window.run_width (W := Ring) (holds_ofWidth width).tracks commands⟩

/-- The set of the counters presented since the last reset determines all that a
ring shows, whatever became of each of them when it was presented. -/
theorem visible_state_of_history (width : UInt64) (commands : List Command) :
    let r := (Window.run (ofWidth width) commands).2
    let known := presented commands
    IsGreatest (insert 0 (known : Set Counter)) r.last ∧
    (∀ c, r.isExpired c = true ↔ c ≤ r.last ∧ width.toNat ≤ r.last.toNat - c.toNat) ∧
    (∀ c, r.accepts c = true ↔
      r.last < c ∨ (r.last.toNat - c.toNat < width.toNat ∧ c ∉ known)) ∧
    (∀ c, (r.offer c).1 = true ↔
      r.last < c ∨ (r.last.toNat - c.toNat < width.toNat ∧ c ∉ known)) ∧
    ∀ others : List Command, presented others = known →
      r.Alike (Window.run (ofWidth width) others).2 := by
  intro r known
  obtain ⟨htracks, hwidth⟩ := run_tracks width commands
  have haccepts : ∀ c, r.accepts c = true ↔
      r.last < c ∨ (r.last.toNat - c.toNat < width.toNat ∧ c ∉ known) := by
    intro c
    rw [htracks.accepts_iff c, hwidth]
    rfl
  refine ⟨htracks.isFront, ?_, haccepts, ?_, ?_⟩
  · intro c
    rw [isExpired_iff, hwidth, UInt64.le_iff_toNat_le]
  · intro c
    rw [htracks.offer_fst c]
    exact haccepts c
  · intro others hsame
    obtain ⟨hothers, hwidth'⟩ := run_tracks width others
    rw [hsame] at hothers
    exact htracks.alike hothers (hwidth.trans hwidth'.symm)

/-- Counter 1 comes too late in the first order and in time in the second, and
counter 3 comes twice; both rings have seen 1, 3 and 70. -/
theorem visible_state_of_two_orders :
    let early : List Command := [.offer 1, .record 3, .accepts 9, .offer 70]
    let late : List Command := [.offer 5, .reset, .offer 3, .record 70, .offer 3, .record 1]
    presented early = presented late ∧
      (Window.run (ofWidth 4) late).2.Alike (Window.run (ofWidth 4) early).2 := by
  intro early late
  have hsame : presented early = presented late := by decide
  exact ⟨hsame, (visible_state_of_history 4 late).2.2.2.2 early hsame⟩

end ReplayWindow.Ring
