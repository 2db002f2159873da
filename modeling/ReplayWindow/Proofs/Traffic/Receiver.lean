import ReplayWindow.Proofs.Offers
import ReplayWindow.Proofs.RecordingPaths
import ReplayWindow.Traffic.Receiver
import Mathlib.Data.Bool.Count

/-!
The books of a receiver. Every counter is inspected and then offered to the gate, and the
two always agree, so a counter counts as accepted or as a duplicate, and never as expired.
The gate and the tally come out as if all counters had been offered to the window of the
gate one after another: where a batch or a session ends does not matter, and the clock does
not either.
-/

namespace ReplayWindow

open Window (offerEach)

namespace Tally

/-- A counter that the window has accepted counts as accepted, any other as a duplicate. -/
def enter (tally : Tally) (accepted : Bool) : Tally :=
  tally.count (if accepted then .ok else .refused .duplicate)

def enterEach (tally : Tally) (flags : List Bool) : Tally := flags.foldl enter tally

theorem enterEach_append (tally : Tally) (earlier later : List Bool) :
    tally.enterEach (earlier ++ later) = (tally.enterEach earlier).enterEach later :=
  List.foldl_append

private theorem add_one_add_ofNat (word : UInt64) (n : ℕ) :
    word + 1 + .ofNat n = word + .ofNat (n + 1) := by
  rw [UInt64.add_assoc, UInt64.add_comm 1, UInt64.ofNat_add]
  rfl

/-- Entering flags adds up the two kinds of them and leaves the third count alone. -/
theorem enterEach_eq (tally : Tally) (flags : List Bool) :
    tally.enterEach flags =
      ⟨tally.accepted + .ofNat (flags.count true), tally.duplicates + .ofNat (flags.count false),
        tally.expired⟩ := by
  induction flags generalizing tally with
  | nil => simp [enterEach]
  | cons flag rest ih =>
    have hstep : tally.enterEach (flag :: rest) = (tally.enter flag).enterEach rest := rfl
    rw [hstep, ih]
    cases flag with
    | false => simp [enter, count, add_one_add_ofNat]
    | true => simp [enter, count, add_one_add_ofNat]

end Tally

theorem add_ofNat_toNat {word : UInt64} {n : ℕ} (hroom : word.toNat + n < 2 ^ 64) :
    (word + .ofNat n).toNat = word.toNat + n := by
  rw [UInt64.toNat_add, UInt64.toNat_ofNat', Nat.mod_eq_of_lt (a := n) (by omega),
    Nat.mod_eq_of_lt hroom]

namespace Receiver

/-- The counters that reach the gate in some sessions, in their order. -/
def heard (sessions : List Session) : List Counter :=
  (sessions.filter (·.running)).flatMap (·.batches.flatten)

/-- What a receiver holds on to from one session to the next. -/
def Progress.held (p : Progress) : Gate × Tally := (p.gate, p.tally)

/-- What is held when all sessions are over. -/
def settled (s : Gate × Tally) (sessions : List Session) : Gate × Tally :=
  ((listenEach s.1 s.2 sessions).getLast?.map Progress.held).getD s

/-- What is held when the counters have been offered to the window of the gate in turn, and
each answer has been entered. -/
def offered (s : Gate × Tally) (counters : List Counter) : Gate × Tally :=
  (⟨(offerEach s.1.window counters).2⟩, s.2.enterEach (offerEach s.1.window counters).1)

theorem offered_append (s : Gate × Tally) (earlier later : List Counter) :
    offered s (earlier ++ later) = offered (offered s earlier) later := by
  simp only [offered, Window.offerEach_append, Tally.enterEach_append]

theorem offered_tracks {s : Gate × Tally} {known : Finset Counter} (h : s.1.Tracks known)
    (counters : List Counter) : ∃ later, (offered s counters).1.Tracks later :=
  ⟨_, Window.offerEach_tracks (W := Ring) h counters⟩

theorem application_offer (g : Gate) (tally : Tally) (c : Counter) :
    application.offer (g, tally) c = ((g.offer c).answer, (g.offer c).gate, tally) := by
  have hquiet (events : List Event) (s : Gate × Tally) :
      events.foldl (fun s event => application.hook event s) s = s := List.foldl_fixed events
  simp only [Application.offer, Application.settle, hquiet]

namespace Progress

variable {p : Progress} {known : Finset Counter}

theorem take_refused {c : Counter} {why : Refusal} (hc : p.gate.inspect c = .refused why) :
    p.take c = { p with tally := p.tally.enter false } := by
  simp only [take, hc]
  rfl

/-- An offer right after an inspection that was passed is never refused. -/
theorem take_ok {c : Counter} (hc : p.gate.inspect c = .ok) :
    p.take c = { p with
      gate := (p.gate.offer c).gate
      tally := p.tally.enter true
      received := p.received + 1 } := by
  have hanswer : (p.gate.offer c).answer = .ok := (p.gate.offer_answer c).trans hc
  simp only [take, hc, application_offer, hanswer]
  rfl

/-- Taking a counter comes to the same as offering it to the window of the gate. -/
theorem held_take (h : p.gate.Tracks known) (c : Counter) :
    (p.take c).held = offered p.held [c] := by
  obtain ⟨hanswer, haccepted, hrefused⟩ : Window.PathsAgree p.gate.window c := by
    obtain ⟨recorded, hholds, _, _⟩ := h
    exact hholds.pathsAgree c
  have hoffered : offered p.held [c] =
      (⟨(Window.offer p.gate.window c).2⟩, p.tally.enter (Window.offer p.gate.window c).1) := rfl
  rw [hoffered, hanswer]
  cases hc : p.gate.inspect c with
  | ok =>
    have hok : Window.accepts p.gate.window c = true := (p.gate.inspect_ok_iff_accepts c).mp hc
    have hgate := ((p.gate.followsWindow c).accepted hok).2
    rw [haccepted hok, hok, take_ok hc, hgate]
    rfl
  | refused why =>
    have hno : Window.accepts p.gate.window c = false := by
      rw [Bool.eq_false_iff]
      intro hok
      rw [(p.gate.inspect_ok_iff_accepts c).mpr hok] at hc
      exact Verdict.noConfusion hc
    rw [(hrefused hno).1, hno, take_refused hc]
    rfl

theorem held_takeBatch (h : p.gate.Tracks known) (batch : List Counter) :
    (p.takeBatch batch).held = offered p.held batch := by
  induction batch generalizing p known with
  | nil => rfl
  | cons c rest ih =>
    have hfirst := held_take h c
    obtain ⟨later, htracks⟩ := offered_tracks (s := p.held) h [c]
    rw [← hfirst] at htracks
    have hsplit : offered p.held (c :: rest) = offered (offered p.held [c]) rest :=
      offered_append p.held [c] rest
    rw [hsplit, ← hfirst]
    exact ih htracks

/-- Reports touch neither the gate nor the tally. -/
theorem held_report (p : Progress) (elapsed : ℕ) : (p.report elapsed).held = p.held := by
  simp only [report]
  split <;> rfl

theorem held_takeEach (h : p.gate.Tracks known) (start : ℕ) (clock : Clock)
    (batches : List (List Counter)) :
    (p.takeEach start clock batches).held = offered p.held batches.flatten := by
  induction batches generalizing p known clock with
  | nil => rfl
  | cons batch rest ih =>
    let q := (p.takeBatch batch).report (clock.read.1 - start)
    have hfirst : q.held = offered p.held batch :=
      (held_report _ _).trans (held_takeBatch h batch)
    obtain ⟨later, htracks⟩ := offered_tracks (s := p.held) h batch
    rw [← hfirst] at htracks
    have hrest := ih (p := q) htracks clock.read.2
    rw [List.flatten_cons, offered_append, ← hfirst]
    exact hrest

end Progress

section Sessions

variable {s : Gate × Tally} {known : Finset Counter}

/-- A session that is not running changes nothing and reports nothing. -/
theorem listen_idle (g : Gate) (tally : Tally) {session : Session}
    (hidle : session.running = false) :
    listen g tally session = { gate := g, tally := tally } := by
  simp [listen, hidle]

theorem heard_cons (session : Session) (rest : List Session) :
    heard (session :: rest) = heard [session] ++ heard rest := by
  unfold heard
  rw [← List.flatMap_append, ← List.filter_append]
  rfl

theorem held_listen (h : s.1.Tracks known) (session : Session) :
    (listen s.1 s.2 session).held = offered s (heard [session]) := by
  cases hrunning : session.running with
  | false =>
    have hnone : heard [session] = [] := by simp [heard, hrunning]
    rw [listen_idle s.1 s.2 hrunning, hnone]
    rfl
  | true =>
    have hall : heard [session] = session.batches.flatten := by simp [heard, hrunning]
    have htaken := Progress.held_takeEach (p := { gate := s.1, tally := s.2 }) h
      session.clock.read.1 session.clock.read.2 session.batches
    simp only [listen, hrunning, ↓reduceIte, hall]
    exact htaken

theorem settled_cons (s : Gate × Tally) (session : Session) (rest : List Session) :
    settled s (session :: rest) = settled (listen s.1 s.2 session).held rest := by
  unfold settled
  rw [listenEach, List.getLast?_cons, Option.map_some, Option.getD_some]
  exact (Option.getD_map Progress.held _ _).symm

theorem settled_eq_offered (h : s.1.Tracks known) (sessions : List Session) :
    settled s sessions = offered s (heard sessions) := by
  induction sessions generalizing s known with
  | nil => rfl
  | cons session rest ih =>
    have hfirst := held_listen h session
    obtain ⟨later, htracks⟩ := offered_tracks h (heard [session])
    rw [← hfirst] at htracks
    rw [settled_cons, ih htracks, heard_cons, offered_append, hfirst]

end Sessions

/-- What a gate and a tally have come to after some sessions, and what it depends on. -/
structure Balances (g : Gate) (tally : Tally) (sessions : List Session) : Prop where
  window : (settled (g, tally) sessions).1.window = (offerEach g.window (heard sessions)).2
  accepted : (settled (g, tally) sessions).2.accepted.toNat =
    tally.accepted.toNat + (offerEach g.window (heard sessions)).1.count true
  duplicates : (settled (g, tally) sessions).2.duplicates.toNat =
    tally.duplicates.toNat + (offerEach g.window (heard sessions)).1.count false
  expired : (settled (g, tally) sessions).2.expired = tally.expired
  total : (settled (g, tally) sessions).2.accepted.toNat +
      (settled (g, tally) sessions).2.duplicates.toNat =
    tally.accepted.toNat + tally.duplicates.toNat + (heard sessions).length
  passed : ∀ before c after, heard sessions = before ++ c :: after →
    let found := (offered (g, tally) before).1
    found.inspect c = .ok → (found.offer c).answer = .ok
  stream_only : ∀ others : List Session, heard others = heard sessions →
    settled (g, tally) others = settled (g, tally) sessions
  idle : ∀ session : Session, session.running = false →
    listen g tally session = { gate := g, tally := tally }

/-- The books of a receiver balance, however the counters come in batches and sessions and
whatever the clock shows, as long as there is room in the counts. -/
theorem receiver_balances {g : Gate} (hg : g.Reachable) (tally : Tally) (sessions : List Session)
    (haccepted : tally.accepted.toNat + (offerEach g.window (heard sessions)).1.count true < 2 ^ 64)
    (hduplicates :
      tally.duplicates.toNat + (offerEach g.window (heard sessions)).1.count false < 2 ^ 64) :
    Balances g tally sessions := by
  obtain ⟨known, htracks⟩ := hg.tracks
  have hsettled := settled_eq_offered (s := (g, tally)) htracks sessions
  have htally : (settled (g, tally) sessions).2 =
      tally.enterEach (offerEach g.window (heard sessions)).1 := congrArg Prod.snd hsettled
  rw [Tally.enterEach_eq] at htally
  have hyes := add_ofNat_toNat haccepted
  have hno := add_ofNat_toNat hduplicates
  constructor
  case window => exact congrArg (·.1.window) hsettled
  case accepted =>
    rw [htally]
    exact hyes
  case duplicates =>
    rw [htally]
    exact hno
  case expired => rw [htally]
  case total =>
    have hlength := Window.offerEach_length g.window (heard sessions)
    have hkinds := List.count_true_add_count_false (offerEach g.window (heard sessions)).1
    rw [htally, hyes, hno]
    omega
  case passed =>
    intro before c after _ found hc
    rw [found.offer_answer c, hc]
  case stream_only =>
    intro others hsame
    rw [hsettled, settled_eq_offered (s := (g, tally)) htracks others, hsame]
  case idle =>
    intro session hidle
    exact listen_idle g tally hidle

/-- Of eight counters in two sessions four are accepted. Counter 2 is behind the window when
it comes, and is booked as a duplicate. The session between them is not running. -/
theorem receiver_balances_of_width_4 :
    let g := Gate.ofWidth 4
    let tally : Tally := ⟨100, 200, 7⟩
    let sessions : List Session :=
      [⟨true, [[5, 9], [], [9, 2]], .ofTicks [300]⟩, ⟨false, [[70]], .ofTicks []⟩,
        ⟨true, [[8, 80, 8, 80]], .ofTicks [2000000000]⟩]
    g.Reachable ∧
    (offerEach g.window (heard sessions)).1 =
      [true, true, false, false, true, true, false, false] ∧
    settled (g, tally) sessions = (⟨(offerEach g.window (heard sessions)).2⟩, ⟨104, 204, 7⟩) ∧
    Balances g tally sessions := by
  intro g tally sessions
  have hreachable : g.Reachable := ⟨4, [], rfl⟩
  exact ⟨hreachable, by decide, by decide,
    receiver_balances hreachable tally sessions (by decide) (by decide)⟩

end Receiver

end ReplayWindow
