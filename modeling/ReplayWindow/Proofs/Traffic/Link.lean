import ReplayWindow.Proofs.Counter
import ReplayWindow.Proofs.Offers
import ReplayWindow.Proofs.Ring.History
import ReplayWindow.Proofs.Shifted
import ReplayWindow.Traffic.Link

/-!
What a link lets out, and how wide a window has to be for it. The next counter in order
never goes back, and nothing comes out ahead of it or more than 2047 positions behind it, so
that no counter trails an earlier one by more than that. One link does come to this bound:
it holds its first counter back for as long as it can.
-/

namespace ReplayWindow

theorem Counter.back_toNat (c : Counter) (distance : UInt64) :
    (c.back distance).toNat = c.toNat - distance.toNat := by
  unfold Counter.back
  split
  · next hle => exact UInt64.toNat_sub_of_le _ _ hle
  · next hfar =>
    rw [UInt64.le_iff_toNat_le] at hfar
    rw [UInt64.toNat_zero]
    omega

namespace Link

section Word

/-- All that one word can do. -/
theorem deliver_cases (word : UInt32) (next : Counter) :
    (word.toNat % 32 = 0 ∧ deliver word next = (none, next + 1)) ∨
    (word.toNat % 32 = 1 ∧ deliver word next = (some (next.back 1), next)) ∨
    (word.toNat % 32 = 2 ∧ ∃ distance : UInt64, distance.toNat < 2048 ∧
      deliver word next = (some (next.back distance), next)) ∨
    (3 ≤ word.toNat % 32 ∧ deliver word next = (some next, next + 1)) := by
  have hmod : (word % 32).toNat = word.toNat % 32 := by
    rw [UInt32.toNat_mod]
    rfl
  unfold deliver
  rw [hmod]
  split
  · next h => exact Or.inl ⟨h, rfl⟩
  · next h => exact Or.inr (Or.inl ⟨h, rfl⟩)
  · next h =>
    refine Or.inr (Or.inr (Or.inl ⟨h, _, ?_, rfl⟩))
    rw [UInt64.toNat_mod]
    exact Nat.mod_lt _ (by decide)
  · next h0 h1 h2 =>
    have hzero : word.toNat % 32 ≠ 0 := h0
    have hone : word.toNat % 32 ≠ 1 := h1
    have htwo : word.toNat % 32 ≠ 2 := h2
    exact Or.inr (Or.inr (Or.inr ⟨by omega, rfl⟩))

/-- The word takes the next counter in order on by one. -/
abbrev Moves (word : UInt32) : Prop := word.toNat % 32 ≠ 1 ∧ word.toNat % 32 ≠ 2

theorem deliver_next {word : UInt32} {next : Counter}
    (hroom : Moves word → next.toNat + 1 < 2 ^ 64) :
    (deliver word next).2.toNat = next.toNat + if Moves word then 1 else 0 := by
  rcases deliver_cases word next with ⟨h, heq⟩ | ⟨h, heq⟩ | ⟨h, distance, _, heq⟩ | ⟨h, heq⟩
  · have hmoves : Moves word := by omega
    rw [heq, if_pos hmoves]
    exact Ring.succ_toNat (hroom hmoves)
  · rw [heq, if_neg fun hmoves => hmoves.1 h]
    rfl
  · rw [heq, if_neg fun hmoves => hmoves.2 h]
    rfl
  · have hmoves : Moves word := by omega
    rw [heq, if_pos hmoves]
    exact Ring.succ_toNat (hroom hmoves)

theorem deliver_none_iff (word : UInt32) (next : Counter) :
    (deliver word next).1 = none ↔ word.toNat % 32 = 0 := by
  rcases deliver_cases word next with ⟨h, heq⟩ | ⟨h, heq⟩ | ⟨h, distance, _, heq⟩ | ⟨h, heq⟩
  · simp [heq, h]
  · simp [heq, h]
  · simp [heq, h]
  · rw [heq]
    simp
    omega

/-- What comes out is not ahead of its time, and at most 2047 positions late. -/
theorem deliver_late {word : UInt32} {next c : Counter} (hc : (deliver word next).1 = some c) :
    c.toNat ≤ next.toNat ∧ next.toNat - c.toNat ≤ 2047 := by
  rcases deliver_cases word next with ⟨_, heq⟩ | ⟨_, heq⟩ | ⟨_, distance, hd, heq⟩ | ⟨_, heq⟩
  · simp [heq] at hc
  · rw [heq] at hc
    rw [← Option.some.inj hc, Counter.back_toNat, UInt64.toNat_one]
    omega
  · rw [heq] at hc
    rw [← Option.some.inj hc, Counter.back_toNat]
    omega
  · rw [heq] at hc
    rw [← Option.some.inj hc]
    omega

end Word

section Draws

/-- One word that a link has drawn: the next counter in order at that time, and the counter
that came out, if any. -/
structure Draw where
  word : UInt32
  next : Counter
  out : Option Counter

/-- The words that a link draws, with what becomes of each. -/
def draws (source : WordSource) (next : Counter) : ℕ → List Draw
  | 0 => []
  | count + 1 =>
    ⟨source.draw.1, next, (deliver source.draw.1 next).1⟩ ::
      draws source.draw.2 (deliver source.draw.1 next).2 count

variable {source : WordSource} {next : Counter} {count : ℕ} {d : Draw}

theorem draws_succ (source : WordSource) (next : Counter) (count : ℕ) :
    draws source next (count + 1) =
      ⟨source.draw.1, next, (deliver source.draw.1 next).1⟩ ::
        draws source.draw.2 (deliver source.draw.1 next).2 count := rfl

theorem draws_length (source : WordSource) (next : Counter) (count : ℕ) :
    (draws source next count).length = count := by
  induction count generalizing source next with
  | zero => rfl
  | succ count ih => rw [draws_succ, List.length_cons, ih]

theorem draw_out (hd : d ∈ draws source next count) : d.out = (deliver d.word d.next).1 := by
  induction count generalizing source next with
  | zero => exact absurd hd List.not_mem_nil
  | succ count ih =>
    rw [draws_succ] at hd
    rcases List.mem_cons.mp hd with hfirst | hrest
    · rw [hfirst]
    · exact ih hrest

theorem deliverEach_counters (source : WordSource) (next : Counter) (count : ℕ) :
    (deliverEach source next count).counters = (draws source next count).filterMap (·.out) := by
  induction count generalizing source next with
  | zero => rfl
  | succ count ih =>
    have hrest := ih source.draw.2 (deliver source.draw.1 next).2
    rw [draws_succ, List.filterMap_cons, ← hrest]
    simp only [deliverEach]
    cases (deliver source.draw.1 next).1 with
    | none => rfl
    | some c => rfl

/-- The next counter in order does not overflow while the words are drawn. -/
def NoWrap (source : WordSource) (next : Counter) (count : ℕ) : Prop :=
  ∀ d ∈ draws source next count, Moves d.word → d.next.toNat + 1 < 2 ^ 64

/-- A word takes the next counter in order on or leaves it, and does not let the later words
overflow if it may not do so itself. -/
theorem NoWrap.cons (h : NoWrap source next (count + 1)) :
    (deliver source.draw.1 next).2.toNat =
        next.toNat + (if Moves source.draw.1 then 1 else 0) ∧
      NoWrap source.draw.2 (deliver source.draw.1 next).2 count := by
  obtain ⟨hfirst, hrest⟩ := List.forall_mem_cons.mp h
  exact ⟨deliver_next hfirst, hrest⟩

theorem NoWrap.next_le (h : NoWrap source next (count + 1)) :
    next.toNat ≤ (deliver source.draw.1 next).2.toNat := by
  rw [h.cons.1]
  exact Nat.le_add_right _ _

/-- As many counters as there are words are always enough. -/
theorem noWrap_of_room (hroom : next.toNat + count < 2 ^ 64) : NoWrap source next count := by
  induction count generalizing source next with
  | zero => exact fun _ hd => absurd hd List.not_mem_nil
  | succ count ih =>
    have hnear : next.toNat + 1 < 2 ^ 64 := by omega
    have hstep : (deliver source.draw.1 next).2.toNat = _ := deliver_next fun _ => hnear
    refine List.forall_mem_cons.mpr ⟨fun _ => hnear, ih ?_⟩
    split at hstep <;> omega

theorem deliverEach_next (h : NoWrap source next count) :
    (deliverEach source next count).next.toNat =
      next.toNat + (draws source next count).countP fun d => Moves d.word := by
  induction count generalizing source next with
  | zero => rfl
  | succ count ih =>
    obtain ⟨hstep, hlater⟩ := h.cons
    have hnext : (deliverEach source next (count + 1)).next =
        (deliverEach source.draw.2 (deliver source.draw.1 next).2 count).next := rfl
    rw [hnext, ih hlater, hstep, draws_succ, List.countP_cons]
    simp only [decide_eq_true_eq]
    omega

/-- As long as there are counters left, the next one in order never goes back. -/
theorem next_le_draw_next (h : NoWrap source next count) (hd : d ∈ draws source next count) :
    next.toNat ≤ d.next.toNat := by
  induction count generalizing source next with
  | zero => exact absurd hd List.not_mem_nil
  | succ count ih =>
    rw [draws_succ] at hd
    rcases List.mem_cons.mp hd with hfirst | hrest
    · rw [hfirst]
    · exact h.next_le.trans (ih h.cons.2 hrest)

theorem draws_pairwise (h : NoWrap source next count) :
    (draws source next count).Pairwise fun d e => d.next.toNat ≤ e.next.toNat := by
  induction count generalizing source next with
  | zero => exact List.Pairwise.nil
  | succ count ih =>
    rw [draws_succ]
    refine List.Pairwise.cons ?_ (ih h.cons.2)
    intro e he
    exact h.next_le.trans (next_le_draw_next h.cons.2 he)

theorem draw_next_le_end (h : NoWrap source next count) (hd : d ∈ draws source next count) :
    d.next.toNat ≤ (deliverEach source next count).next.toNat := by
  induction count generalizing source next with
  | zero => exact absurd hd List.not_mem_nil
  | succ count ih =>
    rw [draws_succ] at hd
    rcases List.mem_cons.mp hd with hfirst | hrest
    · rw [hfirst, deliverEach_next h]
      exact Nat.le_add_right _ _
    · exact ih h.cons.2 hrest

/-- Each word lets one counter out, but for those that lose a packet. -/
theorem deliverEach_length (source : WordSource) (next : Counter) (count : ℕ) :
    (deliverEach source next count).counters.length +
      (draws source next count).countP (fun d => d.word.toNat % 32 = 0) = count := by
  have hlost : (draws source next count).countP (fun d => d.word.toNat % 32 = 0) =
      (draws source next count).countP fun d => ¬ d.out.isSome = true := by
    apply List.countP_congr
    intro d hd
    rw [draw_out hd, decide_eq_true_eq, decide_eq_true_eq, Option.not_isSome_iff_eq_none,
      deliver_none_iff]
  rw [deliverEach_counters, List.length_filterMap_eq_countP, hlost,
    ← List.length_eq_countP_add_countP, draws_length]

/-- A counter is at most 2047 behind the next one in order, which is never behind what came
out earlier. -/
theorem deliverEach_trails (h : NoWrap source next count) :
    Window.Trails 2047 (deliverEach source next count).counters := by
  rw [deliverEach_counters]
  unfold Window.Trails
  rw [List.pairwise_filterMap]
  refine (draws_pairwise h).imp_of_mem ?_
  intro d e hd he hle b hb c hc
  rw [draw_out hd] at hb
  rw [draw_out he] at hc
  have hearlier := deliver_late hb
  have hlater := deliver_late hc
  omega

end Draws

section Batches

theorem deliverEach_add (source : WordSource) (next : Counter) (first later : ℕ) :
    deliverEach source next (first + later) =
      let begun := deliverEach source next first
      let rest := deliverEach begun.source begun.next later
      { rest with counters := begun.counters ++ rest.counters } := by
  induction first generalizing source next with
  | zero => rw [Nat.zero_add]; rfl
  | succ first ih =>
    have hrest := ih source.draw.2 (deliver source.draw.1 next).2
    rw [Nat.add_right_comm]
    simp only [deliverEach, hrest, List.append_assoc]

/-- The counters of successive batches. -/
def stream (source : WordSource) (first : Counter) (count : ℕ) : List Counter :=
  (batches source first count).flatMap (·.counters)

/-- The next counter in order after them. -/
def nextAfter (source : WordSource) (first : Counter) (count : ℕ) : Counter :=
  ((batches source first count).getLast?.map (·.next)).getD first

theorem batches_length (source : WordSource) (first : Counter) (count : ℕ) :
    (batches source first count).length = count := by
  induction count generalizing source first with
  | zero => rfl
  | succ count ih => exact congrArg (· + 1) (ih _ _)

theorem batchWords_succ (count : ℕ) :
    batchWords * (count + 1) = batchWords + batchWords * count := by
  rw [Nat.mul_succ, Nat.add_comm]

theorem stream_succ (source : WordSource) (first : Counter) (count : ℕ) :
    stream source first (count + 1) = (batch source first).counters ++
      stream (batch source first).source (batch source first).next count := rfl

theorem next_of_getLast? (begun : Delivery) (later : List Delivery) (first : Counter) :
    ((begun :: later).getLast?.map (·.next)).getD first =
      (later.getLast?.map (·.next)).getD begun.next := by
  rw [List.getLast?_cons, Option.map_some, Option.getD_some, Option.getD_map]

theorem nextAfter_succ (source : WordSource) (first : Counter) (count : ℕ) :
    nextAfter source first (count + 1) =
      nextAfter (batch source first).source (batch source first).next count :=
  next_of_getLast? (batch source first)
    (batches (batch source first).source (batch source first).next count) first

/-- Where a batch ends makes no difference to the counters. -/
theorem stream_eq (source : WordSource) (first : Counter) (count : ℕ) :
    stream source first count = (deliverEach source first (batchWords * count)).counters := by
  induction count generalizing source first with
  | zero => rfl
  | succ count ih =>
    rw [batchWords_succ, deliverEach_add, stream_succ, ih]
    rfl

theorem nextAfter_eq (source : WordSource) (first : Counter) (count : ℕ) :
    nextAfter source first count = (deliverEach source first (batchWords * count)).next := by
  induction count generalizing source first with
  | zero => rfl
  | succ count ih =>
    rw [batchWords_succ, deliverEach_add, nextAfter_succ, ih]
    rfl

/-- What successive batches let out, word by word. -/
structure Orderly (source : WordSource) (first : Counter) (count : ℕ) : Prop where
  counters_eq : stream source first count =
    (draws source first (batchWords * count)).filterMap (·.out)
  next_eq : (nextAfter source first count).toNat = first.toNat +
    (draws source first (batchWords * count)).countP fun d =>
      d.word.toNat % 32 ≠ 1 ∧ d.word.toNat % 32 ≠ 2
  length_eq : (stream source first count).length +
    (draws source first (batchWords * count)).countP (fun d => d.word.toNat % 32 = 0) =
      batchWords * count
  never_back : (draws source first (batchWords * count)).Pairwise fun d e =>
    d.next.toNat ≤ e.next.toNat
  never_past : ∀ d ∈ draws source first (batchWords * count),
    first.toNat ≤ d.next.toNat ∧ d.next.toNat ≤ (nextAfter source first count).toNat
  late : ∀ d ∈ draws source first (batchWords * count), ∀ c, d.out = some c →
    c.toNat ≤ d.next.toNat ∧ d.next.toNat - c.toNat ≤ 2047

theorem orderly (source : WordSource) {first : Counter} {count : ℕ}
    (hroom : first.toNat + batchWords * count < 2 ^ 64) : Orderly source first count := by
  have hwrap : NoWrap source first (batchWords * count) := noWrap_of_room hroom
  constructor
  case counters_eq => rw [stream_eq, deliverEach_counters]
  case next_eq => rw [nextAfter_eq, deliverEach_next hwrap]
  case length_eq =>
    rw [stream_eq]
    exact deliverEach_length source first (batchWords * count)
  case never_back => exact draws_pairwise hwrap
  case never_past =>
    intro d hd
    rw [nextAfter_eq]
    exact ⟨next_le_draw_next hwrap hd, draw_next_le_end hwrap hd⟩
  case late =>
    intro d hd c hc
    rw [draw_out hd] at hc
    exact deliver_late hc

/-- One packet is lost, one repeated and one late. -/
example : deliverEach ⟨[0, 3, 1, 65506, 3], 7⟩ 5000 5 =
    ⟨[5001, 5001, 2955, 5002], 5003, ⟨[], 7⟩⟩ := by decide

end Batches

section Tightness

theorem deliverEach_cons (word : UInt32) (script : List UInt32) (state : UInt64)
    (next : Counter) (count : ℕ) :
    (deliverEach ⟨word :: script, state⟩ next (count + 1)).counters =
      (deliver word next).1.toList ++
        (deliverEach ⟨script, state⟩ (deliver word next).2 count).counters := rfl

/-- Words with remainder 3 let the counters out in their order. -/
theorem deliverEach_in_order (words : ℕ) (rest : List UInt32) (state : UInt64) {next : Counter}
    (hroom : next.toNat + words < 2 ^ 64) (count : ℕ) :
    ∃ counters reached, (∀ c ∈ counters, next.toNat ≤ c.toNat) ∧
      reached.toNat = next.toNat + words ∧
      (deliverEach ⟨List.replicate words 3 ++ rest, state⟩ next (words + count)).counters =
        counters ++ (deliverEach ⟨rest, state⟩ reached count).counters := by
  induction words generalizing next with
  | zero =>
    refine ⟨[], next, fun c hc => absurd hc List.not_mem_nil, rfl, ?_⟩
    rw [Nat.zero_add]
    rfl
  | succ words ih =>
    have hsucc : (next + 1).toNat = next.toNat + 1 := Ring.succ_toNat (by omega)
    have hroom' : (next + 1).toNat + words < 2 ^ 64 := by omega
    obtain ⟨counters, reached, hlow, hreached, hrest⟩ := ih hroom'
    refine ⟨next :: counters, reached, ?_, by omega, ?_⟩
    · intro c hc
      rcases List.mem_cons.mp hc with hfirst | hlater
      · rw [hfirst]
      · have hle := hlow c hlater
        omega
    · have hdeliver : deliver 3 next = (some next, next + 1) := rfl
      rw [Nat.add_right_comm, List.replicate_succ, List.cons_append, deliverEach_cons, hdeliver,
        hrest]
      rfl

/-- Words on which a link loses its first counter, goes on in order for as long as it can,
lets the next counter in order out before its turn, and only then delivers the first one. -/
def heldBack : WordSource := ⟨0 :: (List.replicate 2046 3 ++ [2, 65506]), 0⟩

theorem heldBack_stream {first : Counter} {count : ℕ}
    (hroom : first.toNat + batchWords * count < 2 ^ 64) (hcount : 0 < count) :
    ∃ before after, stream heldBack first count = before ++ first :: after ∧
      first ∉ before ∧ ∃ d ∈ before, first.toNat + 2047 ≤ d.toNat := by
  have hwords : 4096 ≤ batchWords * count := Nat.le_mul_of_pos_right batchWords hcount
  have hsucc : (first + 1).toNat = first.toNat + 1 := Ring.succ_toNat (by omega)
  obtain ⟨left, hleft⟩ : ∃ left, batchWords * count = 2046 + (left + 2) + 1 :=
    ⟨batchWords * count - 2049, by omega⟩
  have hroom' : (first + 1).toNat + 2046 < 2 ^ 64 := by omega
  obtain ⟨counters, reached, hlow, hreached, hrest⟩ :=
    deliverEach_in_order 2046 [2, 65506] 0 hroom' (left + 2)
  -- 65506 is 2 + 32 * 2047: the same case as 2, with another distance.
  have hlost : deliver 0 first = (none, first + 1) := rfl
  have hearly : deliver 2 reached = (some (reached.back 0), reached) := rfl
  have hlate : deliver 65506 reached = (some (reached.back 2047), reached) := rfl
  have hahead : (reached.back 0).toNat = first.toNat + 2047 := by
    have hzero : (0 : UInt64).toNat = 0 := rfl
    rw [Counter.back_toNat, hzero]
    omega
  have hfirst : reached.back 2047 = first := by
    have hfar : (2047 : UInt64).toNat = 2047 := rfl
    rw [← UInt64.toNat_inj, Counter.back_toNat, hfar]
    omega
  refine ⟨counters ++ [reached.back 0], (deliverEach ⟨[], 0⟩ reached left).counters, ?stream,
    ?unseen, reached.back 0, ?came, ?ahead⟩
  case stream =>
    rw [stream_eq, hleft, heldBack, deliverEach_cons, hlost, hrest, deliverEach_cons, hearly,
      deliverEach_cons, hlate, hfirst, List.append_assoc]
    rfl
  case unseen =>
    intro hmem
    rcases List.mem_append.mp hmem with hcame | hlast
    · have hle := hlow first hcame
      omega
    · rw [← List.mem_singleton.mp hlast] at hahead
      omega
  case came => exact List.mem_append_right counters List.mem_cons_self
  case ahead => exact hahead.ge

end Tightness

theorem NoWrap.stream_trails {source : WordSource} {first : Counter} {count : ℕ}
    (h : NoWrap source first (batchWords * count)) :
    Window.Trails 2047 (stream source first count) := by
  rw [stream_eq]
  exact deliverEach_trails h

theorem stream_trails (source : WordSource) {first : Counter} {count : ℕ}
    (hroom : first.toNat + batchWords * count < 2 ^ 64) :
    Window.Trails 2047 (stream source first count) := (noWrap_of_room hroom).stream_trails

/-- A new window of width 2048 or more loses none of a link's counters, and there is a link
of which a window of width 2047 loses one. -/
theorem window_2048_absorbs_link (source : WordSource) {first : Counter} {count : ℕ}
    (hroom : first.toNat + batchWords * count < 2 ^ 64) :
    Orderly source first count ∧
    (∀ width : UInt64, 2048 ≤ width →
      Window.Absorbs (Ring.ofWidth width) (stream source first count) ∧
      (width.toNat < 2 ^ 63 → ∃ new, Shifted.create width = .ok new ∧
        Window.Absorbs new (stream source first count))) ∧
    (0 < count → ∃ before after, stream heldBack first count = before ++ first :: after ∧
      first ∉ before ∧ Window.Refuses (Ring.ofWidth 2047) before first ∧
      ∃ new, Shifted.create 2047 = .ok new ∧ Window.Refuses new before first) := by
  have htrails := stream_trails source hroom
  have hring (width : UInt64) := (Ring.holds_ofWidth width).tracks
  refine ⟨orderly source hroom, ?wide, ?tight⟩
  case wide =>
    intro width hwide
    have hlimit : 2047 < width.toNat := UInt64.le_iff_toNat_le.mp hwide
    refine ⟨htrails.absorbs (hring width) hlimit, ?_⟩
    intro hwidth
    refine ⟨_, Shifted.create_eq_ok hwidth, ?_⟩
    apply htrails.absorbs (Shifted.holds_ofWidth width hwidth)
    show 2047 < (Shifted.ofWidth width).width.toNat
    rwa [Shifted.ofWidth_width]
  case tight =>
    intro hcount
    obtain ⟨before, after, hstream, hnew, d, hd, hfar⟩ := heldBack_stream hroom hcount
    have hwidth : (2047 : UInt64).toNat < 2 ^ 63 := by decide
    refine ⟨before, after, hstream, hnew,
      Window.refuses_of_mem (hring 2047) hd hfar, _, Shifted.create_eq_ok hwidth, ?_⟩
    apply Window.refuses_of_mem (Shifted.holds_ofWidth 2047 hwidth) hd
    show first.toNat + (Shifted.ofWidth 2047).width.toNat ≤ d.toNat
    rwa [Shifted.ofWidth_width]

/-- The script loses counter 5000, repeats 5001, lets 2955 out late and goes on at random. -/
theorem window_2048_absorbs_two_batches :
    let source : WordSource := ⟨[0, 3, 1, 65506, 3], 7⟩
    (5000 : Counter).toNat + batchWords * 2 < 2 ^ 64 ∧ Orderly source 5000 2 ∧
    (2048 : UInt64) ≤ 2048 ∧ Window.Absorbs (Ring.ofWidth 2048) (stream source 5000 2) ∧
    (2048 : UInt64).toNat < 2 ^ 63 ∧
    (∃ new, Shifted.create 2048 = .ok new ∧ Window.Absorbs new (stream source 5000 2)) ∧
    0 < 2 ∧ ∃ before after, stream heldBack 5000 2 = before ++ 5000 :: after ∧
      5000 ∉ before ∧ Window.Refuses (Ring.ofWidth 2047) before 5000 := by
  intro source
  have hroom : (5000 : Counter).toNat + batchWords * 2 < 2 ^ 64 := by decide
  have hwidth : (2048 : UInt64).toNat < 2 ^ 63 := by decide
  obtain ⟨horderly, hwide, htight⟩ := window_2048_absorbs_link source hroom
  obtain ⟨hring, hshifted⟩ := hwide 2048 (by decide)
  obtain ⟨before, after, hstream, hnew, hlost, _⟩ := htight (by decide)
  exact ⟨hroom, horderly, by decide, hring, hwidth, hshifted hwidth, by decide,
    before, after, hstream, hnew, hlost⟩

end Link

end ReplayWindow
