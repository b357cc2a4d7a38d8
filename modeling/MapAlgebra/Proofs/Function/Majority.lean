import MapAlgebra.Proofs.Function.OrderStatistic

/-!
# The most frequent number

The majority of a list of samples is found in its numbers put in order: equal ones are neighbours
then, and form a run. Main statement: **`majority_vote`**. The majority is no number exactly when no
sample is one; else it is a number to which as many are numerically equal as to any (`votes`), and
the smallest such. Lists of the same numbers have the same majority.

The order goes by order keys, under which the two zeros differ, while runs are counted with `==`. It
matters that the first refines the second: numeric keys rise along the list, so that all numbers of
one numeric key are in one run (`AreRuns`). A search that goes from one run to the next
(`RunSearch`) would stay where it is at a sample that is not equal to itself, but finds the majority
among numbers, with one step for each run.
-/

namespace MapAlgebra

open Number

variable {xs ys l : List Float} {x y m : Float}

/-! ### Runs -/

section Cons

variable {n : Nat} {rest : List (Float × Nat)}

/-- A sample of the numeric key of the first run makes it longer. -/
theorem runs_cons_of_eq (hl : runs l = (y, n) :: rest) (h : numericKey x = numericKey y) :
    runs (x :: l) = (x, n + 1) :: rest := by
  unfold runs
  rw [hl]
  exact if_pos h

/-- Any other sample is a run of its own. -/
theorem runs_cons_of_ne (hl : runs l = (y, n) :: rest) (h : numericKey x ≠ numericKey y) :
    runs (x :: l) = (x, 1) :: (y, n) :: rest := by
  rw [runs, hl]
  exact if_neg h

end Cons

/-- The first run of a list goes on as long as the numeric keys do not change. -/
theorem runs_cons (x : Float) (l : List Float) :
    runs (x :: l) = (x, (l.takeWhile (numericKey · = numericKey x)).length + 1) ::
      runs (l.dropWhile (numericKey · = numericKey x)) := by
  induction l generalizing x with
  | nil => rfl
  | cons y l ih =>
    by_cases h : numericKey x = numericKey y
    · rw [runs_cons_of_eq (ih y) h, List.takeWhile_cons_of_pos (by simp [h]),
        List.dropWhile_cons_of_pos (by simp [h]), List.length_cons]
      simp only [h]
    · rw [runs_cons_of_ne (ih y) h, List.takeWhile_cons_of_neg (by simp [Ne.symm h]),
        List.dropWhile_cons_of_neg (by simp [Ne.symm h]), ih y]
      rfl

theorem length_runs_le (l : List Float) : (runs l).length ≤ l.length := by
  induction l with
  | nil => exact Nat.le_refl _
  | cons x l ih =>
    cases hruns : runs l with
    | nil => simp [runs, hruns]
    | cons run rest =>
      obtain ⟨y, n⟩ := run
      rw [hruns, List.length_cons] at ih
      by_cases h : numericKey x = numericKey y
      · rw [runs_cons_of_eq hruns h]
        simp only [List.length_cons]
        omega
      · rw [runs_cons_of_ne hruns h]
        simp only [List.length_cons]
        omega

/-- How many samples of a list have a numeric key. -/
def keyCount (l : List Float) (k : Int) : Nat := l.countP (numericKey · = k)

theorem keyCount_cons_of_eq {k : Int} (h : numericKey x = k) (l : List Float) :
    keyCount (x :: l) k = keyCount l k + 1 :=
  List.countP_cons_of_pos (decide_eq_true h)

theorem keyCount_cons_of_ne {k : Int} (h : numericKey x ≠ k) (l : List Float) :
    keyCount (x :: l) k = keyCount l k :=
  List.countP_cons_of_neg (by rwa [decide_eq_true_eq])

/-- Runs account for the samples of a list: each begins with a sample and has as many as the list
has of its numeric key; each sample is in one; and their numeric keys rise. -/
structure AreRuns (l : List Float) (rs : List (Float × Nat)) : Prop where
  /-- A run begins with a sample of the list. -/
  mem : ∀ r ∈ rs, r.1 ∈ l
  /-- How many samples have the numeric key of a run. -/
  count_eq : ∀ r ∈ rs, keyCount l (numericKey r.1) = r.2
  /-- The run of a sample. -/
  exists_run : ∀ x ∈ l, ∃ r ∈ rs, numericKey r.1 = numericKey x
  /-- The keys rise. -/
  pairwise : rs.Pairwise fun r r' => numericKey r.1 < numericKey r'.1

section AreRuns

variable {n : Nat} {rs rest : List (Float × Nat)}

/-- A sample of a smaller numeric key than all runs begins a run. -/
theorem AreRuns.begin (h : AreRuns l rs) (hlt : ∀ r ∈ rs, numericKey x < numericKey r.1) :
    AreRuns (x :: l) ((x, 1) :: rs) where
  mem := List.forall_mem_cons.2
    ⟨List.mem_cons_self, fun r hr => List.mem_cons_of_mem _ (h.mem r hr)⟩
  count_eq := by
    refine List.forall_mem_cons.2 ⟨?_, fun r hr => ?_⟩
    · have hnone : keyCount l (numericKey x) = 0 := by
        refine List.countP_eq_zero.2 fun z hz => ?_
        obtain ⟨r, hr, hkey⟩ := h.exists_run z hz
        have := hlt r hr
        rw [decide_eq_true_eq]
        omega
      rw [keyCount_cons_of_eq rfl, hnone]
    · rw [keyCount_cons_of_ne (Int.ne_of_lt (hlt r hr)), h.count_eq r hr]
  exists_run := by
    refine List.forall_mem_cons.2 ⟨⟨_, List.mem_cons_self, rfl⟩, fun z hz => ?_⟩
    obtain ⟨r, hr, hkey⟩ := h.exists_run z hz
    exact ⟨r, List.mem_cons_of_mem _ hr, hkey⟩
  pairwise := List.pairwise_cons.2 ⟨hlt, h.pairwise⟩

/-- A sample of the numeric key of the first run makes it longer. -/
theorem AreRuns.extend (h : AreRuns l ((y, n) :: rest)) (hkey : numericKey x = numericKey y) :
    AreRuns (x :: l) ((x, n + 1) :: rest) where
  mem := List.forall_mem_cons.2 ⟨List.mem_cons_self, fun r hr =>
    List.mem_cons_of_mem _ (h.mem r (List.mem_cons_of_mem _ hr))⟩
  count_eq := by
    obtain ⟨hfirst, hothers⟩ := List.forall_mem_cons.1 h.count_eq
    refine List.forall_mem_cons.2 ⟨?_, fun r hr => ?_⟩
    · rw [keyCount_cons_of_eq rfl]
      exact congrArg (· + 1) (hkey ▸ hfirst)
    · have hlt : numericKey y < numericKey r.1 := (List.pairwise_cons.1 h.pairwise).1 r hr
      rw [keyCount_cons_of_ne (by omega), hothers r hr]
  exists_run := by
    refine List.forall_mem_cons.2 ⟨⟨_, List.mem_cons_self, rfl⟩, fun z hz => ?_⟩
    obtain ⟨r, hr, hr'⟩ := h.exists_run z hz
    rcases List.mem_cons.1 hr with rfl | hr
    · exact ⟨_, List.mem_cons_self, hkey.trans hr'⟩
    · exact ⟨r, List.mem_cons_of_mem _ hr, hr'⟩
  pairwise := by
    obtain ⟨hfirst, hothers⟩ := List.pairwise_cons.1 h.pairwise
    exact List.pairwise_cons.2 ⟨fun r hr => hkey ▸ hfirst r hr, hothers⟩

end AreRuns

/-- The runs of a list whose numeric keys do not fall. -/
theorem areRuns (h : l.Pairwise fun x y => numericKey x ≤ numericKey y) : AreRuns l (runs l) := by
  induction l with
  | nil => exact ⟨nofun, nofun, nofun, .nil⟩
  | cons x l ih =>
    obtain ⟨hx, hl⟩ := List.pairwise_cons.1 h
    have hrest := ih hl
    cases hruns : runs l with
    | nil =>
      have hone : runs (x :: l) = [(x, 1)] := by rw [runs, hruns]
      rw [hone]
      exact (hruns ▸ hrest).begin nofun
    | cons run rest =>
      obtain ⟨y, n⟩ := run
      rw [hruns] at hrest
      by_cases hkey : numericKey x = numericKey y
      · rw [runs_cons_of_eq hruns hkey]
        exact hrest.extend hkey
      · rw [runs_cons_of_ne hruns hkey]
        refine hrest.begin fun r hr => ?_
        have hle : numericKey x ≤ numericKey y := hx y (hrest.mem _ List.mem_cons_self)
        rcases List.mem_cons.1 hr with rfl | hr
        · exact Int.lt_iff_le_and_ne.2 ⟨hle, hkey⟩
        · have hlt : numericKey y < numericKey r.1 :=
            (List.pairwise_cons.1 hrest.pairwise).1 r hr
          omega

/-! ### The longest run -/

/-- The longer of two runs, the first when they are as long as each other. -/
def longer (best run : Float × Nat) : Float × Nat :=
  if best.2 < run.2 then run else best

/-- The longest of some runs whose numeric keys rise is the first of those that are as long. -/
theorem foldl_longer {r : Float × Nat} {rs : List (Float × Nat)}
    (h : (r :: rs).Pairwise fun r r' => numericKey r.1 < numericKey r'.1) :
    rs.foldl longer r ∈ r :: rs ∧ ∀ q ∈ r :: rs, q.2 ≤ (rs.foldl longer r).2 ∧
      (q.2 = (rs.foldl longer r).2 → numericKey (rs.foldl longer r).1 ≤ numericKey q.1) := by
  induction rs generalizing r with
  | nil =>
    refine ⟨List.mem_cons_self, fun q hq => ?_⟩
    rw [List.mem_singleton.1 hq]
    exact ⟨Nat.le_refl _, fun _ => Int.le_refl _⟩
  | cons s rs ih =>
    obtain ⟨hr, hs⟩ := List.pairwise_cons.1 h
    obtain ⟨hfirst, hothers⟩ := List.forall_mem_cons.1 hr
    rw [List.foldl_cons, longer]
    split
    · next hlt =>
      obtain ⟨hmem, hbest⟩ := ih hs
      refine ⟨List.mem_cons_of_mem _ hmem, List.forall_mem_cons.2 ⟨?_, hbest⟩⟩
      have := (hbest s List.mem_cons_self).1
      exact ⟨by omega, fun heq => by omega⟩
    · next hle =>
      obtain ⟨hmem, hbest⟩ := ih (List.pairwise_cons.2 ⟨hothers, (List.pairwise_cons.1 hs).2⟩)
      obtain ⟨hr, hrest⟩ := List.forall_mem_cons.1 hbest
      refine ⟨?_, List.forall_mem_cons.2 ⟨hr, List.forall_mem_cons.2 ⟨?_, hrest⟩⟩⟩
      · rcases List.mem_cons.1 hmem with heq | hmem
        · rw [heq]
          exact List.mem_cons_self
        · exact List.mem_cons_of_mem _ (List.mem_cons_of_mem _ hmem)
      · exact ⟨by omega, fun heq => by have := hr.2 (by omega); omega⟩

/-! ### The majority -/

/-- How many numbers of a list are numerically equal to a sample. -/
def votes (xs : List Float) (x : Float) : Nat :=
  (valid xs).countP (· == x)

theorem votes_eq_keyCount (hx : x.isNaN = false) :
    votes xs x = keyCount (sortValid xs) (numericKey x) := by
  rw [votes, keyCount, (perm_sortValid xs).countP_eq]
  refine List.countP_congr fun y hy => ?_
  rw [beq_iff (isNaN_of_mem_valid hy) hx, decide_eq_true_eq]

/-- A number of a list has the most votes among the numbers of the list, and is the smallest of
those that have as many. -/
structure IsMajority (xs : List Float) (m : Float) : Prop where
  /-- It is one of the numbers. -/
  mem : m ∈ valid xs
  /-- None has more votes. -/
  votes_le : ∀ x ∈ valid xs, votes xs x ≤ votes xs m
  /-- None that has as many votes is smaller. -/
  le : ∀ x ∈ valid xs, votes xs x = votes xs m → m ≤ x

theorem majorityOfValid_eq (xs : List Float) :
    majorityOfValid xs = ((runs (sortValid xs)).foldl longer (nan, 0)).1 := rfl

theorem isMajority_majorityOfValid (h : valid xs ≠ []) : IsMajority xs (majorityOfValid xs) := by
  have hruns : AreRuns (sortValid xs) (runs (sortValid xs)) :=
    areRuns ((pairwise_sortValid xs).imp numericKey_le)
  obtain ⟨z, hz⟩ := List.exists_mem_of_ne_nil _ (mt sortValid_eq_nil_iff.1 h)
  obtain ⟨first, rest, hsplit⟩ : ∃ first rest, runs (sortValid xs) = first :: rest := by
    obtain ⟨r, hr, -⟩ := hruns.exists_run z hz
    exact List.exists_cons_of_ne_nil (List.ne_nil_of_mem hr)
  -- The first run is longer than none, so the search may as well begin with it.
  have hfirst : first ∈ runs (sortValid xs) := hsplit ▸ List.mem_cons_self
  have hpos : 0 < first.2 := by
    rw [← hruns.count_eq first hfirst]
    exact List.countP_pos_iff.2 ⟨first.1, hruns.mem first hfirst, decide_eq_true rfl⟩
  have hbegin : (runs (sortValid xs)).foldl longer (nan, 0) = rest.foldl longer first := by
    rw [hsplit, List.foldl_cons, longer, if_pos hpos]
  obtain ⟨hmem, hbest⟩ := foldl_longer (hsplit ▸ hruns.pairwise)
  rw [← hbegin, ← hsplit] at hmem
  rw [← hbegin, ← hsplit] at hbest
  have hnumber := isNaN_of_mem_sortValid (hruns.mem _ hmem)
  have hvotes : votes xs (majorityOfValid xs) =
      ((runs (sortValid xs)).foldl longer (nan, 0)).2 := by
    rw [majorityOfValid_eq, votes_eq_keyCount hnumber, hruns.count_eq _ hmem]
  have hrun : ∀ x ∈ valid xs, ∃ q ∈ runs (sortValid xs), numericKey q.1 = numericKey x ∧
      votes xs x = q.2 := fun x hx => by
    obtain ⟨q, hq, hkey⟩ := hruns.exists_run x ((perm_sortValid xs).mem_iff.2 hx)
    refine ⟨q, hq, hkey, ?_⟩
    rw [votes_eq_keyCount (isNaN_of_mem_valid hx), ← hkey, hruns.count_eq q hq]
  refine ⟨(perm_sortValid xs).mem_iff.1 (hruns.mem _ hmem), fun x hx => ?_, fun x hx heq => ?_⟩
  · obtain ⟨q, hq, -, hcount⟩ := hrun x hx
    rw [hcount, hvotes]
    exact (hbest q hq).1
  · obtain ⟨q, hq, hkey, hcount⟩ := hrun x hx
    rw [majorityOfValid_eq, le_iff hnumber (isNaN_of_mem_valid hx), ← hkey]
    exact (hbest q hq).2 (by rw [← hcount, heq, hvotes])

theorem isNaN_majorityOfValid_iff : (majorityOfValid xs).isNaN = true ↔ valid xs = [] := by
  refine isNaN_iff_valid_eq_nil (fun h => isNaN_of_mem_valid (isMajority_majorityOfValid h).mem)
    fun h => ?_
  rw [majorityOfValid_eq, sortValid_eq_nil_iff.2 h]
  exact isNaN_nan

theorem SameNumbers.majorityOfValid_eq (h : SameNumbers xs ys) :
    majorityOfValid xs = majorityOfValid ys := by
  unfold majorityOfValid
  rw [h.sortValid_eq]

/-! ### Searching run by run -/

/-- Where a search for the longest run of a list stands. -/
structure RunSearch where
  /-- The place where the next run begins. -/
  start : Nat
  /-- The first sample of the longest run so far. -/
  best : Float
  /-- The length of the longest run so far. -/
  length : Nat

namespace RunSearch

/-- The search behind the next run, which goes on as long as samples are equal to its first. -/
def next? (l : List Float) (s : RunSearch) : Option RunSearch :=
  match l.drop s.start with
  | [] => none
  | x :: rest =>
    let length := ((x :: rest).takeWhile (· == x)).length
    let best := longer (s.best, s.length) (x, length)
    some ⟨s.start + length, best.1, best.2⟩

/-- A search takes some steps, each of which gets further in the list, and ends with a sample. -/
inductive Finds (l : List Float) : Nat → RunSearch → Float → Prop where
  /-- There is no next run. -/
  | done {s : RunSearch} : s.next? l = none → Finds l 0 s s.best
  /-- There is a next run. -/
  | step {s s' : RunSearch} {steps : Nat} {m : Float} : s.next? l = some s' →
      s.start < s'.start → Finds l steps s' m → Finds l (steps + 1) s m

theorem drop_length_takeWhile (p : Float → Bool) (l : List Float) :
    l.drop (l.takeWhile p).length = l.dropWhile p :=
  calc l.drop (l.takeWhile p).length
      = (l.takeWhile p ++ l.dropWhile p).drop (l.takeWhile p).length := by
        rw [List.takeWhile_append_dropWhile]
    _ = l.dropWhile p := List.drop_left ..

/-- Among numbers, a run goes on as long as numeric keys do not change. -/
theorem takeWhile_beq (hx : x.isNaN = false) (hl : ∀ y ∈ l, y.isNaN = false) :
    l.takeWhile (· == x) = l.takeWhile (numericKey · = numericKey x) := by
  induction l with
  | nil => rfl
  | cons y l ih =>
    obtain ⟨hy, hrest⟩ := List.forall_mem_cons.1 hl
    have hsame : (y == x) = decide (numericKey y = numericKey x) :=
      Bool.eq_iff_iff.2 ((beq_iff hy hx).trans decide_eq_true_iff.symm)
    rw [List.takeWhile_cons, List.takeWhile_cons, hsame, ih hrest]

/-- Among numbers, a search goes on behind the run that begins where it stands. -/
theorem next?_of_drop (hl : ∀ x ∈ l, x.isNaN = false) {s : RunSearch} {rest : List Float}
    (hdrop : l.drop s.start = x :: rest) :
    ∃ n s', runs (l.drop s.start) = (x, n) :: runs (l.drop s'.start) ∧ s.next? l = some s' ∧
      s.start < s'.start ∧ s'.start ≤ l.length ∧
      (s'.best, s'.length) = longer (s.best, s.length) (x, n) := by
  have hnumbers : ∀ y ∈ x :: rest, y.isNaN = false :=
    hdrop ▸ fun y hy => hl y (List.mem_of_mem_drop hy)
  have hlength : ((x :: rest).takeWhile (· == x)).length =
      (rest.takeWhile (numericKey · = numericKey x)).length + 1 := by
    rw [takeWhile_beq (hnumbers x List.mem_cons_self) hnumbers, List.takeWhile_cons,
      decide_eq_true rfl]
    rfl
  have hbehind : l.drop (s.start + ((x :: rest).takeWhile (· == x)).length) =
      rest.dropWhile (numericKey · = numericKey x) := by
    rw [← List.drop_drop, hdrop, hlength, List.drop_succ_cons]
    exact drop_length_takeWhile _ rest
  have hle : ((x :: rest).takeWhile (· == x)).length ≤ l.length - s.start := by
    rw [← List.length_drop, hdrop]
    exact (List.takeWhile_sublist _).length_le
  obtain ⟨n, hn⟩ : ∃ n, n = ((x :: rest).takeWhile (· == x)).length := ⟨_, rfl⟩
  rw [← hn] at hlength hbehind hle
  refine ⟨n, ⟨s.start + n, (longer (s.best, s.length) (x, n)).1,
    (longer (s.best, s.length) (x, n)).2⟩, ?_, ?_, ?_, ?_, rfl⟩
  · rw [hbehind, hdrop, runs_cons, hlength]
  · rw [next?, hdrop, hn]
  · show s.start < s.start + n
    omega
  · show s.start + n ≤ l.length
    have := congrArg List.length hdrop
    rw [List.length_drop, List.length_cons] at this
    omega

/-- Among numbers, a search takes a step for each run that is left and finds the longest run. -/
theorem finds_runs (hl : ∀ x ∈ l, x.isNaN = false) (s : RunSearch) :
    Finds l (runs (l.drop s.start)).length s
      ((runs (l.drop s.start)).foldl longer (s.best, s.length)).1 := by
  match hdrop : l.drop s.start with
  | [] =>
    refine Finds.done ?_
    rw [next?, hdrop]
  | x :: rest =>
    obtain ⟨n, s', hruns, hnext, hlt, hle, hbest⟩ := next?_of_drop hl hdrop
    rw [← hdrop, hruns, List.length_cons, List.foldl_cons, ← hbest]
    exact Finds.step hnext hlt (finds_runs hl s')
termination_by l.length - s.start

end RunSearch

/-- **Majority**: the majority of a list of samples is no number exactly when no sample is one. Else
it is a number of the list to which as many are numerically equal as to any, and no greater than
another such. Lists of the same numbers have the same majority. A search over the numbers in order
finds it, run by run, in no more steps than there are samples. -/
theorem majority_vote (xs : List Float) :
    ((Reduction.maj.eval xs).isNaN = true ↔ ∀ x ∈ xs, x.isNaN = true) ∧
    (valid xs ≠ [] → IsMajority xs (Reduction.maj.eval xs)) ∧
    (∀ ys, SameNumbers xs ys → Reduction.maj.eval xs = Reduction.maj.eval ys) ∧
    ∃ steps ≤ xs.length,
      RunSearch.Finds (sortValid xs) steps ⟨0, nan, 0⟩ (Reduction.maj.eval xs) := by
  have hlength : (runs (sortValid xs)).length ≤ xs.length :=
    calc (runs (sortValid xs)).length
        ≤ (sortValid xs).length := length_runs_le _
      _ = (valid xs).length := (perm_sortValid xs).length_eq
      _ ≤ xs.length := List.length_filter_le ..
  refine ⟨isNaN_majorityOfValid_iff.trans valid_eq_nil_iff, isMajority_majorityOfValid,
    fun ys => SameNumbers.majorityOfValid_eq, (runs (sortValid xs)).length, hlength, ?_⟩
  exact RunSearch.finds_runs (fun _ => isNaN_of_mem_sortValid) ⟨0, nan, 0⟩

/-- Zeros are equal whatever their sign, so they have as many votes as the number three, and are
smaller; neither their order nor missing samples change that. -/
theorem majority_vote_tie :
    let samples := [nan, 3.0, 0.0, 7.0, -0.0, nan, 3.0]
    let others := [3.0, -0.0, nan, 0.0, 3.0, 7.0]
    valid samples ≠ [] ∧ SameNumbers samples others ∧ Reduction.maj.eval samples = -0.0 ∧
      IsMajority samples (-0.0) ∧ Reduction.maj.eval others = -0.0 := by
  intro samples others
  have hvalid : valid samples ≠ [] := by decide +kernel
  have hsame : SameNumbers samples others := by
    unfold SameNumbers
    decide +kernel
  have hsorted : sortValid samples = [-0.0, 0.0, 3.0, 3.0, 7.0] :=
    sortValid_eq_of_perm (by decide +kernel) (by decide +kernel)
  have hzero : Reduction.maj.eval samples = -0.0 := by
    refine (majorityOfValid_eq samples).trans ?_
    rw [hsorted]
    decide +kernel
  obtain ⟨-, hmajority, hagree, -⟩ := majority_vote samples
  exact ⟨hvalid, hsame, hzero, hzero ▸ hmajority hvalid, (hagree others hsame).symm.trans hzero⟩

end MapAlgebra
