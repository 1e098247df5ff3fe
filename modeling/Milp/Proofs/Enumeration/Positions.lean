import Milp.Proofs.Enumeration

/-! Positions of an odometer as digits. Before the tuple number `k`, counted from zero, the positions
are the digits of `k` in the mixed radix whose bases are the lengths of the axes: the last axis counts
units, and every other one counts the tuples of the axes after it. Stepping is counting up by one, with
carries, until the number of tuples is reached. -/
namespace Milp.Odometer

variable {α : Type}

def volume (axes : List (List α)) : Nat := (axes.map List.length).prod

/-- The digits of a number, one per axis; what exceeds the volume is dropped. -/
def digits : List (List α) → Nat → List Nat
  | [], _ => []
  | axis :: axes, k => k / volume axes % axis.length :: digits axes k

/-- The odometer after so many requests for a tuple. A request after the last tuple changes
nothing. -/
def after (o : Odometer α) : Nat → Odometer α
  | 0 => o
  | n + 1 =>
    match (o.after n).next? with
    | none => o.after n
    | some (_, o') => o'

@[simp] theorem volume_nil : volume ([] : List (List α)) = 1 := rfl

@[simp] theorem volume_cons (axis : List α) (axes : List (List α)) :
    volume (axis :: axes) = axis.length * volume axes := rfl

theorem volume_pos {axes : List (List α)} : 0 < volume axes ↔ ∀ axis ∈ axes, axis ≠ [] := by
  induction axes with
  | nil => simp
  | cons axis axes ih => simp [ih, List.length_pos_iff]

@[simp] theorem length_digits (axes : List (List α)) (k : Nat) :
    (digits axes k).length = axes.length := by
  induction axes with
  | nil => rfl
  | cons axis axes ih => rw [digits, List.length_cons, ih, List.length_cons]

theorem getElem?_digits (axes : List (List α)) (k : Nat) {p : Nat} (hp : p < axes.length) :
    (digits axes k)[p]? = some (k / volume (axes.drop (p + 1)) % axes[p].length) := by
  induction axes generalizing p with
  | nil => cases hp
  | cons axis axes ih =>
    cases p with
    | zero => rfl
    | succ p => exact ih (Nat.lt_of_succ_lt_succ hp)

/-- A multiple of the volume has zeros for digits. -/
theorem digits_of_volume_dvd {axes : List (List α)} {k : Nat} (h : volume axes ∣ k) :
    digits axes k = List.replicate axes.length 0 := by
  induction axes with
  | nil => rfl
  | cons axis axes ih =>
    obtain ⟨c, rfl⟩ := h
    have hrest : volume axes ∣ volume (axis :: axes) * c :=
      (Dvd.intro_left _ rfl).trans (Dvd.intro _ rfl)
    have hfirst : volume (axis :: axes) * c / volume axes % axis.length = 0 := by
      rcases Nat.eq_zero_or_pos (volume axes) with h0 | hpos
      · simp [h0]
      · rw [volume_cons, Nat.mul_right_comm, Nat.mul_div_cancel _ hpos, Nat.mul_mod_right]
    rw [digits, ih hrest, hfirst, List.length_cons, List.replicate_succ]

/-- Digits point at entries. -/
theorem onAxes_digits {axes : List (List α)} (h : ∀ axis ∈ axes, axis ≠ []) (k : Nat) :
    OnAxes axes (digits axes k) := by
  induction axes with
  | nil => exact .nil
  | cons axis axes ih =>
    rw [List.forall_mem_cons] at h
    exact .cons (Nat.mod_lt _ (List.length_pos_iff.mpr h.1)) (ih h.2)

/-- A number below a product of bases is the last one where both of its digits are last. -/
private theorem mod_mul_add_one_lt {n c : Nat} (hn : 0 < n) (hc : 0 < c) (k : Nat) :
    k % (n * c) + 1 < n * c ↔ k % c + 1 < c ∨ k / c % n + 1 < n := by
  have hsplit : k % (n * c) = k % c + c * (k / c % n) := by rw [Nat.mul_comm, Nat.mod_mul]
  have hlow : k % c < c := Nat.mod_lt k hc
  have hhigh : k / c % n < n := Nat.mod_lt _ hn
  have hroom : c * (k / c % n + 1) ≤ n * c := by
    rw [Nat.mul_comm n]
    exact Nat.mul_le_mul_left c hhigh
  rw [hsplit]
  constructor
  · intro h
    by_contra! hlast
    have hfull : c * (k / c % n + 1) = n * c := by
      rw [(Nat.le_antisymm hhigh hlast.2 : k / c % n + 1 = n), Nat.mul_comm]
    rw [Nat.mul_succ] at hfull
    omega
  · rintro (h | h)
    · rw [Nat.mul_succ] at hroom
      omega
    · have hmore : c * (k / c % n + 1 + 1) ≤ n * c := by
        rw [Nat.mul_comm n]
        exact Nat.mul_le_mul_left c h
      rw [Nat.mul_succ, Nat.mul_succ] at hmore
      omega

/-- Stepping counts up by one, and ends where the volume is reached. -/
theorem advance_digits {axes : List (List α)} (h : ∀ axis ∈ axes, axis ≠ []) (k : Nat) :
    advance axes (digits axes k) =
      if k % volume axes + 1 < volume axes then some (digits axes (k + 1)) else none := by
  induction axes with
  | nil => simp [advance]
  | cons axis axes ih =>
    rw [List.forall_mem_cons] at h
    have hv : 0 < volume axes := volume_pos.mpr h.2
    have hlength : 0 < axis.length := List.length_pos_iff.mpr h.1
    have hstep : k + 1 = volume axes * (k / volume axes) + (k % volume axes + 1) := by
      rw [← Nat.add_assoc, Nat.div_add_mod]
    simp only [digits, advance, ih h.2, volume_cons, mod_mul_add_one_lt hlength hv]
    by_cases hlater : k % volume axes + 1 < volume axes
    · -- The later digits count on, and this one stays.
      have hsame : (k + 1) / volume axes = k / volume axes := by
        rw [hstep, Nat.mul_add_div hv, Nat.div_eq_of_lt hlater, Nat.add_zero]
      rw [if_pos hlater, hsame]
      exact (if_pos (.inl hlater)).symm
    · -- The later digits are at their last tuple: this one counts, if it can.
      have hfull : k % volume axes + 1 = volume axes :=
        Nat.le_antisymm (Nat.mod_lt k hv) (Nat.le_of_not_lt hlater)
      rw [hfull, ← Nat.mul_succ] at hstep
      have hcarry : (k + 1) / volume axes = k / volume axes + 1 := by
        rw [hstep, Nat.mul_div_cancel_left _ hv]
      have hreset : (digits axes k).map (fun _ => 0) = digits axes (k + 1) := by
        rw [digits_of_volume_dvd (Dvd.intro _ hstep.symm), List.map_const', length_digits]
      rw [if_neg hlater, hreset, hcarry]
      by_cases hroom : k / volume axes % axis.length + 1 < axis.length
      · have hdigit : (k / volume axes + 1) % axis.length = k / volume axes % axis.length + 1 := by
          rw [Nat.add_mod, Nat.mod_eq_of_lt (by omega : 1 < axis.length), Nat.mod_eq_of_lt hroom]
        rw [hdigit]
        exact (if_pos hroom).trans (if_pos (.inr hroom)).symm
      · exact (if_neg hroom).trans (if_neg (not_or_intro hlater hroom)).symm

/-- An odometer counts the tuples. -/
theorem after_start (axes : List (List α)) (k : Nat) :
    (start axes).after k = ⟨axes, if k < volume axes then some (digits axes k) else none⟩ := by
  by_cases h : ∀ axis ∈ axes, axis ≠ []
  · have hv : 0 < volume axes := volume_pos.mpr h
    induction k with
    | zero =>
      have hany : axes.any List.isEmpty = false := by simpa using h
      rw [after, start, hany, if_neg (by simp), if_pos hv, digits_of_volume_dvd (Nat.dvd_zero _),
        List.map_const']
    | succ k ih =>
      rw [after, ih]
      by_cases hk : k < volume axes
      · obtain ⟨t, ht, _⟩ := remaining_step (onAxes_digits h k)
        simp only [if_pos hk, next?, ht, Option.map_some, advance_digits h, Nat.mod_eq_of_lt hk]
      · simp only [if_neg hk, next?, if_neg (by omega : ¬ k + 1 < volume axes)]
  · have hv : volume axes = 0 := by
      by_contra hne
      exact h (volume_pos.mp (Nat.pos_of_ne_zero hne))
    have hany : axes.any List.isEmpty = true := by simpa using h
    induction k with
    | zero => rw [after, start, hany, if_pos rfl, hv, if_neg (Nat.lt_irrefl 0)]
    | succ k ih => simp only [after, ih, hv, Nat.not_lt_zero, if_false, next?]

theorem pick_cons_eq_some {axis : List α} {axes : List (List α)} {p : Nat} {ps : List Nat}
    {t : List α} :
    pick (axis :: axes) (p :: ps) = some t ↔
      ∃ x xs, axis[p]? = some x ∧ pick axes ps = some xs ∧ t = x :: xs := by
  rw [pick]
  cases axis[p]? with
  | none => simp
  | some x => cases pick axes ps <;> simp [eq_comm]

/-- A picked tuple has the entry at the position of each axis. -/
theorem getElem?_of_pick {axes : List (List α)} {ps : List Nat} {t : List α}
    (h : pick axes ps = some t) :
    t.length = axes.length ∧
      ∀ p (hp : p < axes.length), t[p]? = ps[p]?.bind fun i => axes[p][i]? := by
  induction axes generalizing ps t with
  | nil =>
    cases ps with
    | nil =>
      cases h
      exact ⟨rfl, nofun⟩
    | cons p ps => cases h
  | cons axis axes ih =>
    cases ps with
    | nil => cases h
    | cons i ps =>
      obtain ⟨x, xs, hx, hxs, rfl⟩ := pick_cons_eq_some.mp h
      obtain ⟨hlength, hentries⟩ := ih hxs
      refine ⟨congrArg Nat.succ hlength, fun p hp => ?_⟩
      cases p with
      | zero => exact hx.symm
      | succ p => exact hentries p (Nat.lt_of_succ_lt_succ hp)

/-- Where no axis repeats an entry, a tuple is picked at one list of positions only. -/
theorem pick_injective {axes : List (List α)} (h : ∀ axis ∈ axes, axis.Nodup) {ps qs : List Nat}
    {t : List α} (hps : pick axes ps = some t) (hqs : pick axes qs = some t) : ps = qs := by
  induction axes generalizing ps qs t with
  | nil =>
    cases ps with
    | nil =>
      cases qs with
      | nil => rfl
      | cons q qs => cases hqs
    | cons p ps => cases hps
  | cons axis axes ih =>
    rw [List.forall_mem_cons] at h
    cases ps with
    | nil => cases hps
    | cons p ps =>
      cases qs with
      | nil => cases hqs
      | cons q qs =>
        obtain ⟨x, xs, hx, hxs, rfl⟩ := pick_cons_eq_some.mp hps
        obtain ⟨y, ys, hy, hys, he⟩ := pick_cons_eq_some.mp hqs
        obtain ⟨rfl, rfl⟩ := List.cons.inj he
        obtain ⟨hp, _⟩ := List.getElem?_eq_some_iff.mp hx
        rw [ih h.2 hxs hys, (List.getElem?_inj hp h.1).mp (hx.trans hy.symm)]

/-- Below the volume, digits tell numbers apart. -/
theorem mod_volume_of_digits {axes : List (List α)} {j k : Nat}
    (h : digits axes j = digits axes k) : j % volume axes = k % volume axes := by
  induction axes with
  | nil => rw [volume_nil, Nat.mod_one, Nat.mod_one]
  | cons axis axes ih =>
    obtain ⟨hfirst, hrest⟩ := List.cons.inj h
    rw [volume_cons, Nat.mul_comm, Nat.mod_mul, Nat.mod_mul, hfirst, ih hrest]

def answer (o : Odometer α) (k : Nat) : Option (List α) := (o.after k).next?.map Prod.fst

theorem answer_start (axes : List (List α)) (k : Nat) :
    (start axes).answer k = if k < volume axes then pick axes (digits axes k) else none := by
  rw [answer, after_start]
  by_cases hk : k < volume axes
  · rw [if_pos hk, if_pos hk, next?, Option.map_map, Function.comp_def, Option.map_id']
  · rw [if_neg hk, if_neg hk]
    rfl

theorem after_of_next? {o o' : Odometer α} {t : List α} (h : o.next? = some (t, o')) (k : Nat) :
    o.after (k + 1) = o'.after k := by
  induction k with
  | zero => simp only [after, h]
  | succ k ih => rw [after, ih, after]

theorem after_of_end {o : Odometer α} (h : o.next? = none) (k : Nat) : o.after k = o := by
  induction k with
  | zero => rfl
  | succ k ih => simp only [after, ih, h]

/-- What is taken from an odometer are the answers to so many requests. -/
theorem take_eq_answers (o : Odometer α) (n : Nat) :
    o.take n = (List.range n).filterMap o.answer := by
  induction n generalizing o with
  | zero => rfl
  | succ n ih =>
    rw [take]
    cases h : o.next? with
    | none =>
      have hnone : ∀ k ∈ List.range (n + 1), o.answer k = none := by
        intro k _
        rw [answer, after_of_end h, h]
        rfl
      exact (List.filterMap_eq_nil_iff.mpr hnone).symm
    | some next =>
      obtain ⟨t, o'⟩ := next
      have hfirst : o.answer 0 = some t := by
        rw [answer, after, h]
        rfl
      have hrest : o.answer ∘ Nat.succ = o'.answer := by
        funext k
        rw [Function.comp_apply, answer, after_of_next? h, answer]
      simp only [List.range_succ_eq_map, List.filterMap_cons_some hfirst, List.filterMap_map, hrest,
        ih]

/-- An odometer answers as many requests as there are tuples and no further one. The tuple number
`k` has on each axis the entry at the digit of `k`, in the mixed radix of the lengths of the axes, so
the first axis is outermost. No access is out of bounds, no tuple comes twice where the axes repeat
nothing, and the reported size never changes. -/
theorem answers_of_start (axes : List (List α)) :
    (∀ n, (start axes).take n = (List.range n).filterMap (start axes).answer) ∧
    (∀ k, ((start axes).answer k).isSome = true ↔ k < (axes.map List.length).prod) ∧
    (∀ k t, (start axes).answer k = some t → t.length = axes.length ∧
      ∀ p (hp : p < axes.length),
        t[p]? = axes[p][k / ((axes.drop (p + 1)).map List.length).prod % axes[p].length]?) ∧
    (∀ k ps, ((start axes).after k).positions = some ps →
      List.Forall₂ (fun axis p => p < axis.length) axes ps) ∧
    ((∀ axis ∈ axes, axis.Nodup) → ∀ j k t, (start axes).answer j = some t →
      (start axes).answer k = some t → j = k) ∧
    ∀ k, ((start axes).after k).size = min (axes.map List.length).prod sizeCap := by
  have hpicks {k : Nat} {t : List α} (h : (start axes).answer k = some t) :
      k < volume axes ∧ pick axes (digits axes k) = some t := by
    rw [answer_start] at h
    exact Option.ite_none_right_eq_some.mp h
  have hbounds {k : Nat} (hk : k < volume axes) : OnAxes axes (digits axes k) :=
    onAxes_digits (volume_pos.mp (Nat.zero_lt_of_lt hk)) k
  refine ⟨(start axes).take_eq_answers, fun k => ⟨fun h => ?_, fun hk => ?_⟩, fun k t h => ?_,
    fun k ps h => ?_, fun hdistinct j k t hj hk => ?_, fun k => ?_⟩
  · obtain ⟨t, ht⟩ := Option.isSome_iff_exists.mp h
    exact (hpicks ht).1
  · obtain ⟨t, ht, _⟩ := remaining_step (hbounds hk)
    rw [(answer_start axes k).trans (if_pos hk), ht]
    rfl
  · obtain ⟨hlength, hentries⟩ := getElem?_of_pick (hpicks h).2
    refine ⟨hlength, fun p hp => ?_⟩
    rw [hentries p hp, getElem?_digits axes k hp, Option.bind_some]
    rfl
  · rw [after_start] at h
    obtain ⟨hk, hps⟩ := Option.ite_none_right_eq_some.mp h
    exact Option.some.inj hps ▸ hbounds hk
  · obtain ⟨hjv, hj⟩ := hpicks hj
    obtain ⟨hkv, hk⟩ := hpicks hk
    have hmod := mod_volume_of_digits (pick_injective hdistinct hj hk)
    rwa [Nat.mod_eq_of_lt hjv, Nat.mod_eq_of_lt hkv] at hmod
  · rw [after_start, ← size_start]
    rfl

def grid : List (List Nat) := [[1, 2], [3], [4, 5, 6]]

theorem answers_of_start_grid :
    (∀ axis ∈ grid, axis.Nodup) ∧ (start grid).answer 4 = some [2, 3, 5] ∧
    ((start grid).after 4).positions = some [1, 0, 1] ∧
    (start grid).take 9 = (List.range 9).filterMap (start grid).answer ∧
    ((start grid).answer 5).isSome = true ∧ ¬ ((start grid).answer 6).isSome = true ∧
    ([2, 3, 5].length = grid.length ∧ ∀ p (hp : p < grid.length),
      [2, 3, 5][p]? =
        grid[p][4 / ((grid.drop (p + 1)).map List.length).prod % grid[p].length]?) ∧
    List.Forall₂ (fun axis p => p < axis.length) grid [1, 0, 1] ∧
    (∀ k, (start grid).answer k = some [2, 3, 5] → 4 = k) ∧
    ((start grid).after 9).size = min (grid.map List.length).prod sizeCap := by
  obtain ⟨htake, hcount, hentries, hbounds, hdistinct, hsize⟩ := answers_of_start grid
  have haxes : ∀ axis ∈ grid, axis.Nodup := by decide
  have hfour : (start grid).answer 4 = some [2, 3, 5] := rfl
  have hpositions : ((start grid).after 4).positions = some [1, 0, 1] := rfl
  exact ⟨haxes, hfour, hpositions, htake 9, (hcount 5).mpr (by decide),
    mt (hcount 6).mp (by decide), hentries 4 _ hfour, hbounds 4 _ hpositions,
    fun k hk => hdistinct haxes 4 k _ hfour hk, hsize 9⟩

end Milp.Odometer
