import ReplayWindow.Proofs.Ring.History

/-!
Rings of two widths under the same commands. Both have seen the same counters, so
they have the same front, although they may have accepted different ones. The wider
ring refuses nothing that the narrower one accepts, and what it accepts beyond that
lies behind the window of the narrower one and still inside its own.
-/

namespace ReplayWindow

open Window (Command Acceptable presented run step)

namespace Window

variable {W : Type} [Window W]

/-- A command is answered by the window that the commands before it have left. -/
theorem run_answer (w : W) (commands : List Command) (n : ℕ) :
    (run w commands).1[n]? =
      commands[n]?.map fun command => (step (run w (commands.take n)).2 command).1 := by
  induction commands generalizing w n with
  | nil => simp [run]
  | cons command rest ih =>
    cases n with
    | zero => rfl
    | succ n => exact ih (step w command).2 n

theorem run_answer_offer (w : W) {commands : List Command} {n : ℕ} {c : Counter}
    (hc : commands[n]? = some (.offer c)) :
    (run w commands).1[n]? = some (.flag (offer (run w (commands.take n)).2 c).1) := by
  rw [run_answer, hc]
  rfl

variable {narrow wide : UInt64} {last : Counter} {known : Finset Counter} {c : Counter}

theorem Acceptable.mono (h : Acceptable narrow last known c) (hle : narrow ≤ wide) :
    Acceptable wide last known c := by
  have hwidth := UInt64.le_iff_toNat_le.mp hle
  rcases h with hahead | ⟨hin, hnew⟩
  · exact Or.inl hahead
  · exact Or.inr ⟨by omega, hnew⟩

/-- What only the wider of two windows accepts is behind the narrower one. -/
theorem Acceptable.between (h : Acceptable wide last known c)
    (hnarrow : ¬ Acceptable narrow last known c) :
    c ≤ last ∧ narrow.toNat ≤ last.toNat - c.toNat ∧ last.toNat - c.toNat < wide.toNat := by
  rcases h with hahead | ⟨hin, hnew⟩
  · exact absurd (Or.inl hahead) hnarrow
  · have hbehind : c ≤ last := UInt64.not_lt.mp fun hahead => hnarrow (Or.inl hahead)
    have hout : ¬ last.toNat - c.toNat < narrow.toNat := fun hnear => hnarrow (Or.inr ⟨hnear, hnew⟩)
    exact ⟨hbehind, by omega, hin⟩

end Window

namespace Ring

/-- What rings of a narrow and of a wide width show while they get the same commands.
`accepted` and `acceptedWide` are their answers to one offer. -/
structure Outlasts (narrow wide : UInt64) (commands : List Command) : Prop where
  last_eq : ∀ n, (run (ofWidth narrow) (commands.take n)).2.last =
    (run (ofWidth wide) (commands.take n)).2.last
  offers : ∀ n c, commands[n]? = some (.offer c) → ∃ accepted acceptedWide,
    (run (ofWidth narrow) commands).1[n]? = some (.flag accepted) ∧
    (run (ofWidth wide) commands).1[n]? = some (.flag acceptedWide) ∧
    (accepted = true → acceptedWide = true) ∧
    (acceptedWide = true → accepted = false →
      let r := (run (ofWidth narrow) (commands.take n)).2
      r.isExpired c = true ∧ c ≤ r.last ∧
        narrow.toNat ≤ r.last.toNat - c.toNat ∧ r.last.toNat - c.toNat < wide.toNat)

theorem offer_iff_acceptable (width : UInt64) (commands : List Command) (c : Counter) :
    ((run (ofWidth width) commands).2.offer c).1 = true ↔
      Acceptable width (run (ofWidth width) commands).2.last (presented commands) c := by
  obtain ⟨htracks, hwidth⟩ := run_tracks width commands
  rw [htracks.offer_fst c, htracks.accepts_iff c, hwidth]

theorem run_last_eq (narrow wide : UInt64) (commands : List Command) :
    (run (ofWidth narrow) commands).2.last = (run (ofWidth wide) commands).2.last :=
  (run_tracks narrow commands).1.isFront.unique (run_tracks wide commands).1.isFront

/-- A wider window never refuses what a narrower one accepts, whatever the two have
been through together. -/
theorem wider_outlasts_narrower (narrow wide : UInt64) (hle : narrow ≤ wide)
    (commands : List Command) : Outlasts narrow wide commands := by
  constructor
  case last_eq =>
    intro n
    exact run_last_eq narrow wide (commands.take n)
  case offers =>
    intro n c hc
    have hshort := offer_iff_acceptable narrow (commands.take n) c
    have hlong := offer_iff_acceptable wide (commands.take n) c
    rw [← run_last_eq narrow wide] at hlong
    refine ⟨_, _, Window.run_answer_offer _ hc, Window.run_answer_offer _ hc, ?_, ?_⟩
    · intro haccepted
      exact hlong.mpr ((hshort.mp haccepted).mono hle)
    · intro haccepted hrefused r
      have hnarrow : ¬ Acceptable narrow r.last (presented (commands.take n)) c := by
        intro hok
        exact Bool.false_ne_true (hrefused.symm.trans (hshort.mpr hok))
      obtain ⟨hbehind, hout, hin⟩ := (hlong.mp haccepted).between hnarrow
      refine ⟨?_, hbehind, hout, hin⟩
      rw [isExpired_iff, (run_tracks narrow (commands.take n)).2]
      exact ⟨UInt64.le_iff_toNat_le.mp hbehind, hout⟩

/-- Counter 6 comes 64 positions late. A ring of two slots has left it behind, and one
of four slots still has a place for it. -/
theorem width_65_outlasts_width_4 :
    let commands : List Command :=
      [.offer 3, .reset, .record 70, .offer 69, .offer 6, .offer 3, .offer 69]
    (run (ofWidth 4) commands).1 =
      [.flag true, .done, .done, .flag true, .flag false, .flag false, .flag false] ∧
    (run (ofWidth 65) commands).1 =
      [.flag true, .done, .done, .flag true, .flag true, .flag false, .flag false] ∧
    (4 : UInt64) ≤ 65 ∧ Outlasts 4 65 commands := by
  intro commands
  have hle : (4 : UInt64) ≤ 65 := by decide
  exact ⟨by decide, by decide, hle, wider_outlasts_narrower 4 65 hle commands⟩

end Ring

end ReplayWindow
