import ReplayWindow.Proofs.History
import Mathlib.Algebra.GroupWithZero.Nat
import Mathlib.Data.Finset.Card
import Mathlib.Data.List.Induction

/-!
Counters offered to a window in turn. When none of them comes further behind an earlier one
than the window is wide, the window loses nothing: no counter is behind it when it comes,
and each is accepted the first time and only then.
-/

namespace ReplayWindow.Window

open Faithful

variable {W : Type} [Window W]

section Offers

theorem offerEach_append (w : W) (earlier later : List Counter) :
    offerEach w (earlier ++ later) =
      ((offerEach w earlier).1 ++ (offerEach (offerEach w earlier).2 later).1,
        (offerEach (offerEach w earlier).2 later).2) := by
  induction earlier generalizing w with
  | nil => rfl
  | cons c rest ih =>
    have hrest := ih (offer w c).2
    simp only [List.cons_append, offerEach, hrest]

theorem offerEach_length (w : W) (counters : List Counter) :
    (offerEach w counters).1.length = counters.length := by
  induction counters generalizing w with
  | nil => rfl
  | cons c rest ih => exact congrArg (· + 1) (ih (offer w c).2)

/-- A counter is answered by the window that the counters before it have left. -/
theorem offerEach_getElem? (w : W) (before : List Counter) (c : Counter) (after : List Counter) :
    (offerEach w (before ++ c :: after)).1[before.length]? =
      some (offer (offerEach w before).2 c).1 := by
  induction before generalizing w with
  | nil => rfl
  | cons first rest ih => exact ih (offer w first).2

variable [Faithful W] {w : W} {known : Finset Counter}

theorem offerEach_tracks (h : Tracks w known) (counters : List Counter) :
    Tracks (offerEach w counters).2 (known ∪ counters.toFinset) := by
  induction counters generalizing w known with
  | nil =>
    rw [List.toFinset_nil, Finset.union_empty]
    exact h
  | cons c rest ih =>
    have hrest := ih (tracks_offer h c)
    rw [List.toFinset_cons, Finset.union_insert, ← Finset.insert_union]
    exact hrest

theorem offerEach_width (h : Tracks w known) (counters : List Counter) :
    width (offerEach w counters).2 = width w := by
  induction counters generalizing w known with
  | nil => rfl
  | cons c rest ih => exact (ih (tracks_offer h c)).trans (width_offer h c)

/-- A new window tracks just the counters that it was offered. -/
theorem offerEach_new_tracks (h : Tracks w ∅) (counters : List Counter) :
    Tracks (offerEach w counters).2 counters.toFinset := by
  have htracks := offerEach_tracks h counters
  rwa [Finset.empty_union] at htracks

/-- Windows of one width with one history answer alike to all offers. -/
theorem offerEach_answers_eq {V : Type} [Window V] [Faithful V] {v : V} (hv : Tracks v known)
    (hw : Tracks w known) (hwidth : width v = width w) (counters : List Counter) :
    (offerEach v counters).1 = (offerEach w counters).1 := by
  induction counters generalizing v w known with
  | nil => rfl
  | cons c rest ih =>
    have hanswer : (offer v c).1 = (offer w c).1 := by
      rw [offer_fst hv, offer_fst hw, accepts_eq_of_tracks hv hw hwidth c]
    have hwidth' : width (offer v c).2 = width (offer w c).2 := by
      rw [width_offer hv, width_offer hw, hwidth]
    have hrest := ih (tracks_offer hv c) (tracks_offer hw c) hwidth'
    show (offer v c).1 :: (offerEach (offer v c).2 rest).1 =
      (offer w c).1 :: (offerEach (offer w c).2 rest).1
    rw [hanswer, hrest]

end Offers

section Batches

/-- How many counters of each batch are accepted when the batches are offered in turn. -/
def acceptedEach (w : W) : List (List Counter) → List ℕ
  | [] => []
  | batch :: rest =>
    let (flags, w) := offerEach w batch
    flags.count true :: acceptedEach w rest

theorem acceptedEach_length (w : W) (batches : List (List Counter)) :
    (acceptedEach w batches).length = batches.length := by
  induction batches generalizing w with
  | nil => rfl
  | cons batch rest ih => exact congrArg (· + 1) (ih (offerEach w batch).2)

theorem acceptedEach_sum (w : W) (batches : List (List Counter)) :
    (acceptedEach w batches).sum = (offerEach w batches.flatten).1.count true := by
  induction batches generalizing w with
  | nil => rfl
  | cons batch rest ih =>
    have hrest := ih (offerEach w batch).2
    rw [List.flatten_cons, offerEach_append, List.count_append, ← hrest]
    exact List.sum_cons

theorem acceptedEach_eq_of_tracks {V : Type} [Window V] [Faithful V] [Faithful W] {v : V} {w : W}
    {known : Finset Counter} (hv : Tracks v known) (hw : Tracks w known)
    (hwidth : width v = width w) (batches : List (List Counter)) :
    acceptedEach v batches = acceptedEach w batches := by
  induction batches generalizing v w known with
  | nil => rfl
  | cons batch rest ih =>
    have hflags := offerEach_answers_eq hv hw hwidth batch
    have hwidth' : width (offerEach v batch).2 = width (offerEach w batch).2 := by
      rw [offerEach_width hv, offerEach_width hw, hwidth]
    have hrest := ih (offerEach_tracks hv batch) (offerEach_tracks hw batch) hwidth'
    simp only [acceptedEach, hflags, hrest]

end Batches

/-- No counter comes more than `limit` behind one that has come before it. -/
def Trails (limit : ℕ) (counters : List Counter) : Prop :=
  counters.Pairwise fun earlier c => earlier.toNat ≤ c.toNat + limit

/-- The window keeps up with the counters, in whatever order they come. -/
structure Absorbs (w : W) (counters : List Counter) : Prop where
  never_behind : ∀ before c after, counters = before ++ c :: after →
    let found := (offerEach w before).2
    Counter.isBehind (width found) (last found) c = false
  accepts_first : ∀ before c after, counters = before ++ c :: after →
    (offerEach w counters).1[before.length]? = some (decide (c ∉ before))
  count_eq : (offerEach w counters).1.count true = counters.toFinset.card

/-- After the counters the window refuses `c` as too late. -/
def Refuses (w : W) (before : List Counter) (c : Counter) : Prop :=
  let found := (offerEach w before).2
  Counter.isBehind (width found) (last found) c = true ∧ (offer found c).1 = false

section Trails

variable [Faithful W] {w : W} {limit : ℕ} {counters before after : List Counter} {c : Counter}

theorem Trails.not_behind (h : Trails limit (before ++ c :: after)) (hnew : Tracks w ∅)
    (hlimit : limit < (width w).toNat) :
    Counter.isBehind (width (offerEach w before).2) (last (offerEach w before).2) c = false := by
  have hfront := isFront (offerEach_new_tracks hnew before)
  rw [Bool.eq_false_iff, Ne, Counter.isBehind_iff, offerEach_width hnew]
  intro hbehind
  obtain ⟨hle, hout⟩ := hbehind
  rcases hfront.1 with hzero | hmem
  · rw [hzero, UInt64.toNat_zero] at hout
    omega
  · have hcame : last (offerEach w before).2 ∈ before := List.mem_toFinset.mp hmem
    have hnear := (List.pairwise_append.mp h).2.2 _ hcame c List.mem_cons_self
    omega

theorem Trails.offer_eq (h : Trails limit (before ++ c :: after)) (hnew : Tracks w ∅)
    (hlimit : limit < (width w).toNat) :
    (offer (offerEach w before).2 c).1 = decide (c ∉ before) := by
  have htracks := offerEach_new_tracks hnew before
  rw [offer_fst htracks, Bool.eq_iff_iff, accepts_iff_new htracks, h.not_behind hnew hlimit,
    decide_eq_true_eq, List.mem_toFinset]
  exact and_iff_right rfl

theorem Trails.count_eq (h : Trails limit counters) (hnew : Tracks w ∅)
    (hlimit : limit < (width w).toNat) :
    (offerEach w counters).1.count true = counters.toFinset.card := by
  induction counters using List.reverseRecOn with
  | nil => rfl
  | append_singleton rest c ih =>
    have hrest := ih (List.pairwise_append.mp h).1
    have hanswer := h.offer_eq hnew hlimit
    have hlast : (offerEach (offerEach w rest).2 [c]).1 = [decide (c ∉ rest)] :=
      congrArg (fun flag => [flag]) hanswer
    have hset : (rest ++ [c]).toFinset = insert c rest.toFinset := by
      ext d
      simp
    rw [offerEach_append, List.count_append, hrest, hlast, hset]
    by_cases hc : c ∈ rest
    · rw [Finset.insert_eq_of_mem (List.mem_toFinset.mpr hc)]
      simp [hc]
    · rw [Finset.card_insert_of_notMem (mt List.mem_toFinset.mp hc)]
      simp [hc]

/-- A window wider than the counters ever trail loses none of them. -/
theorem Trails.absorbs (h : Trails limit counters) (hnew : Tracks w ∅)
    (hlimit : limit < (width w).toNat) : Absorbs w counters := by
  constructor
  case never_behind =>
    intro before c after hsplit found
    subst hsplit
    exact h.not_behind hnew hlimit
  case accepts_first =>
    intro before c after hsplit
    subst hsplit
    rw [offerEach_getElem?, h.offer_eq hnew hlimit]
  case count_eq => exact h.count_eq hnew hlimit

/-- A counter comes too late when another has come that is a whole width past it. -/
theorem refuses_of_mem (hnew : Tracks w ∅) {d : Counter} (hd : d ∈ before)
    (hfar : c.toNat + (width w).toNat ≤ d.toNat) : Refuses w before c := by
  have htracks := offerEach_new_tracks hnew before
  have hle := (isFront htracks).le (List.mem_toFinset.mpr hd)
  have hbehind : Counter.isBehind (width (offerEach w before).2)
      (last (offerEach w before).2) c = true := by
    rw [Counter.isBehind_iff, offerEach_width hnew]
    omega
  refine ⟨hbehind, ?_⟩
  rw [offer_fst htracks, Bool.eq_false_iff, Ne, accepts_iff_new htracks, hbehind]
  exact fun hok => Bool.false_ne_true hok.1.symm

end Trails

end ReplayWindow.Window
