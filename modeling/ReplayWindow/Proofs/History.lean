import ReplayWindow.Proofs.Counter
import ReplayWindow.Window

/-!
What was presented to a window since its last reset, and the windows that show
nothing but that. Two such windows of one width with the same history give the
same answers to every further command, whatever their inner layouts are.
-/

namespace ReplayWindow.Window

/-- The counters presented since the last reset, after one more command. -/
def Command.present (presented : Finset Counter) : Command → Finset Counter
  | .offer counter => insert counter presented
  | .record counter => insert counter presented
  | .reset => ∅
  | .accepts _ => presented
  | .last => presented
  | .width => presented

def presentedFrom (presented : Finset Counter) (commands : List Command) : Finset Counter :=
  commands.foldl Command.present presented

/-- The counters presented to a new window, accepted or not, since its last reset. -/
def presented (commands : List Command) : Finset Counter := presentedFrom ∅ commands

/-- What a window of the given width accepts after the front has come to `last`. -/
def Acceptable (width : UInt64) (last : Counter) (presented : Finset Counter)
    (c : Counter) : Prop :=
  last < c ∨ (last.toNat - c.toNat < width.toNat ∧ c ∉ presented)

/-- Windows that show nothing but their width and what was presented to them. -/
class Faithful (W : Type) [Window W] where
  Tracks : W → Finset Counter → Prop
  isFront {w : W} {presented : Finset Counter} :
    Tracks w presented → IsFront presented (last w)
  accepts_iff {w : W} {presented : Finset Counter} :
    Tracks w presented → ∀ c, accepts w c = true ↔ Acceptable (width w) (last w) presented c
  offer_fst {w : W} {presented : Finset Counter} :
    Tracks w presented → ∀ c, (offer w c).1 = accepts w c
  tracks_offer {w : W} {presented : Finset Counter} :
    Tracks w presented → ∀ c, Tracks (offer w c).2 (insert c presented)
  tracks_record {w : W} {presented : Finset Counter} :
    Tracks w presented → ∀ c, Tracks (record w c) (insert c presented)
  tracks_reset {w : W} {presented : Finset Counter} :
    Tracks w presented → Tracks (reset w) ∅
  width_offer {w : W} {presented : Finset Counter} :
    Tracks w presented → ∀ c, width (offer w c).2 = width w
  width_record {w : W} {presented : Finset Counter} :
    Tracks w presented → ∀ c, width (record w c) = width w
  width_reset {w : W} {presented : Finset Counter} :
    Tracks w presented → width (reset w) = width w

open Faithful

variable {V W : Type} [Window V] [Window W] [Faithful V] [Faithful W]
variable {v : V} {w : W} {known : Finset Counter}

section Step

theorem step_tracks (h : Tracks w known) (command : Command) :
    Tracks (step w command).2 (command.present known) := by
  cases command with
  | accepts c => exact h
  | offer c => exact tracks_offer h c
  | record c => exact tracks_record h c
  | reset => exact tracks_reset h
  | last => exact h
  | width => exact h

theorem step_width (h : Tracks w known) (command : Command) :
    width (step w command).2 = width w := by
  cases command with
  | accepts c => rfl
  | offer c => exact width_offer h c
  | record c => exact width_record h c
  | reset => exact width_reset h
  | last => rfl
  | width => rfl

theorem last_eq_of_tracks (hv : Tracks v known) (hw : Tracks w known) : last v = last w :=
  (isFront hv).unique (isFront hw)

theorem accepts_eq_of_tracks (hv : Tracks v known) (hw : Tracks w known)
    (hwidth : width v = width w) (c : Counter) : accepts v c = accepts w c := by
  rw [Bool.eq_iff_iff, accepts_iff hv, accepts_iff hw, hwidth, last_eq_of_tracks hv hw]

/-- A counter is acceptable if it is not behind the window and was not presented. -/
theorem accepts_iff_new (h : Tracks w known) (c : Counter) :
    accepts w c = true ↔ Counter.isBehind (width w) (last w) c = false ∧ c ∉ known := by
  rw [accepts_iff h, Bool.eq_false_iff, Ne, Counter.isBehind_iff]
  unfold Acceptable
  rw [UInt64.lt_iff_toNat_lt]
  constructor
  · intro hok
    rcases hok with hahead | ⟨hin, hnew⟩
    · refine ⟨by omega, ?_⟩
      intro hmem
      have hle := (isFront h).le hmem
      omega
    · exact ⟨by omega, hnew⟩
  · intro hok
    obtain ⟨hlive, hnew⟩ := hok
    by_cases hahead : (last w).toNat < c.toNat
    · exact Or.inl hahead
    · exact Or.inr ⟨by omega, hnew⟩

theorem step_answer_eq (hv : Tracks v known) (hw : Tracks w known)
    (hwidth : width v = width w) (command : Command) :
    (step v command).1 = (step w command).1 := by
  cases command with
  | accepts c => exact congrArg Answer.flag (accepts_eq_of_tracks hv hw hwidth c)
  | offer c =>
    have hflag : (offer v c).1 = (offer w c).1 := by
      rw [offer_fst hv, offer_fst hw, accepts_eq_of_tracks hv hw hwidth c]
    exact congrArg Answer.flag hflag
  | record c => rfl
  | reset => rfl
  | last => exact congrArg Answer.word (last_eq_of_tracks hv hw)
  | width => exact congrArg Answer.word hwidth

end Step

section Run

theorem run_tracks (h : Tracks w known) (commands : List Command) :
    Tracks (run w commands).2 (presentedFrom known commands) := by
  induction commands generalizing w known with
  | nil => exact h
  | cons command rest ih => exact ih (step_tracks h command)

theorem run_width (h : Tracks w known) (commands : List Command) :
    width (run w commands).2 = width w := by
  induction commands generalizing w known with
  | nil => rfl
  | cons command rest ih => exact (ih (step_tracks h command)).trans (step_width h command)

/-- Windows with one history answer alike to every sequence of commands. -/
theorem run_answers_eq (hv : Tracks v known) (hw : Tracks w known)
    (hwidth : width v = width w) (commands : List Command) :
    (run v commands).1 = (run w commands).1 := by
  induction commands generalizing v w known with
  | nil => rfl
  | cons command rest ih =>
    have hanswer := step_answer_eq hv hw hwidth command
    have hwidth' : width (step v command).2 = width (step w command).2 := by
      rw [step_width hv, step_width hw, hwidth]
    have hrest := ih (step_tracks hv command) (step_tracks hw command) hwidth'
    show (step v command).1 :: (run (step v command).2 rest).1 =
      (step w command).1 :: (run (step w command).2 rest).1
    rw [hanswer, hrest]

end Run

end ReplayWindow.Window
