import Mathlib.Data.List.Basic

/-!
# Reading from a byte stream

A connection is what its reads will meet: pieces of the stream, cut anywhere, and reads that fail.
`readFull` is the usual loop that calls `read` until it has as much as it wants. Its outcome only
depends on the `tokens` of the connection (`readFull_eq`): the elements one by one, `none` where a
read fails. So no statement about a loop of reads has to mention how the stream was cut.
-/

namespace Reads
variable {α : Type*}

inductive Arrival (α : Type*) where
  | piece (bs : List α)
  | fail

/-- What the reads of a connection will meet; after the last arrival the peer has closed it. -/
abbrev Conn (α : Type*) := List (Arrival α)

/-- One `read` of at most `n` elements: `none` if it returns 0 or less. -/
def read (n : ℕ) : Conn α → Option (List α) × Conn α
  | [] => (none, [])
  | .fail :: c => (none, c)
  | .piece [] :: c => read n c
  | .piece (b :: bs) :: c =>
    if bs.length < n then (some (b :: bs), c)
    else (some ((b :: bs).take n), .piece ((b :: bs).drop n) :: c)

/-- `while (buf.length < n) { read more; if that fails, give up }`, at most `fuel` times. -/
def readLoop (n : ℕ) : ℕ → List α → Conn α → Option (List α) × Conn α
  | 0, buf, c => (some buf, c)
  | fuel + 1, buf, c =>
    if buf.length < n then
      match read (n - buf.length) c with
      | (none, c) => (none, c)
      | (some bs, c) => readLoop n fuel (buf ++ bs) c
    else (some buf, c)

/-- Read exactly `n` elements; a successful read returns at least one, so `n` rounds are enough. -/
def readFull (n : ℕ) (c : Conn α) : Option (List α) × Conn α :=
  readLoop n n [] c

/-! ### Tokens -/

def Arrival.tokens : Arrival α → List (Option α)
  | .piece bs => bs.map some
  | .fail => [none]

/-- The stream element by element, `none` where a read fails. -/
def tokens (c : Conn α) : List (Option α) := c.flatMap Arrival.tokens

@[simp] theorem tokens_nil : tokens ([] : Conn α) = [] := rfl

@[simp] theorem tokens_piece (bs : List α) (c : Conn α) :
    tokens (.piece bs :: c) = bs.map some ++ tokens c := rfl

theorem tokens_piece_append (bs cs : List α) : tokens [.piece (bs ++ cs)] = bs.map some ++ cs.map some := by
  rw [tokens_piece, tokens_nil, List.append_nil, List.map_append]

@[simp] theorem tokens_fail (c : Conn α) : tokens (.fail :: c) = none :: tokens c := rfl

/-- What is left unread, as a stream. -/
def unread (c : Conn α) : List α := (tokens c).filterMap id

theorem unread_of_tokens {c : Conn α} {bs : List α} (h : tokens c = bs.map some) : unread c = bs := by
  rw [unread, h, List.filterMap_map]
  exact List.filterMap_some

/-- What one read can do: the stream is at its end, the read fails, or it takes between 1 and `n`
elements off the front. -/
theorem read_cases {n : ℕ} (hn : 0 < n) (c : Conn α) :
    (tokens c = [] ∧ read n c = (none, [])) ∨
    (∃ c', tokens c = none :: tokens c' ∧ read n c = (none, c')) ∨
    ∃ bs c', 0 < bs.length ∧ bs.length ≤ n ∧ read n c = (some bs, c') ∧
      tokens c = bs.map some ++ tokens c' := by
  induction c with
  | nil => exact .inl ⟨rfl, rfl⟩
  | cons a c ih =>
    match a with
    | .fail => exact .inr (.inl ⟨c, rfl, rfl⟩)
    | .piece [] => exact ih
    | .piece (b :: bs) =>
      refine .inr (.inr ?_)
      by_cases h : bs.length < n
      · exact ⟨b :: bs, c, by simp, h, by simp [read, h], rfl⟩
      · refine ⟨(b :: bs).take n, .piece ((b :: bs).drop n) :: c, ?_, ?_, by simp [read, h], ?_⟩
        · simp only [List.length_take, List.length_cons]; omega
        · rw [List.length_take]; exact Nat.min_le_left _ _
        · rw [tokens_piece, tokens_piece, ← List.append_assoc, ← List.map_append, List.take_append_drop]

/-- `readFull` on tokens. -/
def takeTokens : ℕ → List (Option α) → Option (List α) × List (Option α)
  | 0, ts => (some [], ts)
  | _ + 1, [] => (none, [])
  | _ + 1, none :: ts => (none, ts)
  | n + 1, some b :: ts => ((takeTokens n ts).1.map (b :: ·), (takeTokens n ts).2)

theorem takeTokens_append {bs : List α} {n : ℕ} (h : bs.length ≤ n) (ts : List (Option α)) :
    takeTokens n (bs.map some ++ ts) =
      ((takeTokens (n - bs.length) ts).1.map (bs ++ ·), (takeTokens (n - bs.length) ts).2) := by
  induction bs generalizing n with
  | nil => simp
  | cons b bs ih =>
    match n, h with
    | n + 1, h =>
      have := ih (n := n) (by simpa using h)
      simp only [List.map_cons, List.cons_append, takeTokens, this, List.length_cons, Nat.add_sub_add_right,
        Option.map_map, Function.comp_def]

theorem readLoop_eq (n fuel : ℕ) (buf : List α) (c : Conn α) (hf : n ≤ buf.length + fuel) (hb : buf.length ≤ n) :
    (readLoop n fuel buf c).1 = (takeTokens (n - buf.length) (tokens c)).1.map (buf ++ ·) ∧
      tokens (readLoop n fuel buf c).2 = (takeTokens (n - buf.length) (tokens c)).2 := by
  induction fuel generalizing buf c with
  | zero => simp [readLoop, show n - buf.length = 0 by omega, takeTokens]
  | succ fuel ih =>
    by_cases hlt : buf.length < n
    · obtain ⟨k, hk⟩ : ∃ k, n - buf.length = k + 1 := ⟨n - buf.length - 1, by omega⟩
      rcases read_cases (show 0 < n - buf.length by omega) c with ⟨ht, hr⟩ | ⟨c', ht, hr⟩ | ⟨bs, c', h1, h2, hr, ht⟩
      · rw [hk] at hr
        simp [readLoop, hlt, hr, ht, hk, takeTokens]
      · rw [hk] at hr
        simp [readLoop, hlt, hr, ht, hk, takeTokens]
      · have hlen : (buf ++ bs).length = buf.length + bs.length := List.length_append
        obtain ⟨h3, h4⟩ := ih (buf ++ bs) c' (by omega) (by omega)
        have hsub : n - (buf ++ bs).length = n - buf.length - bs.length := by omega
        have hrun : readLoop n (fuel + 1) buf c = readLoop n fuel (buf ++ bs) c' := by simp [readLoop, hlt, hr]
        rw [hrun, h3, h4, ht, takeTokens_append h2, hsub]
        exact ⟨by simp [Function.comp_def], rfl⟩
    · simp [readLoop, hlt, show n - buf.length = 0 by omega, takeTokens]

/-- How the stream is cut does not matter to `readFull`. -/
theorem readFull_eq (n : ℕ) (c : Conn α) :
    (readFull n c).1 = (takeTokens n (tokens c)).1 ∧ tokens (readFull n c).2 = (takeTokens n (tokens c)).2 := by
  have h := readLoop_eq n n [] c (by simp) (by simp)
  simpa [readFull] using h

theorem takeTokens_full (bs : List α) (ts : List (Option α)) :
    takeTokens bs.length (bs.map some ++ ts) = (some bs, ts) := by
  simp [takeTokens_append (Nat.le_refl bs.length), takeTokens]

/-- Nothing more to read at the front of `ts`: the end of the stream, or a read that fails and leaves
`ts'`. -/
def Stops (ts ts' : List (Option α)) : Prop := ts = [] ∧ ts' = [] ∨ ts = none :: ts'

/-- Too few elements before a stop: all of them are lost, what follows the stop is not. -/
theorem takeTokens_stop {bs : List α} {n : ℕ} (h : bs.length < n) {ts ts' : List (Option α)} (hs : Stops ts ts') :
    takeTokens n (bs.map some ++ ts) = (none, ts') := by
  obtain ⟨k, hk⟩ : ∃ k, n - bs.length = k + 1 := ⟨n - bs.length - 1, by omega⟩
  rw [takeTokens_append (Nat.le_of_lt h), hk]
  rcases hs with ⟨rfl, rfl⟩ | rfl
  · rfl
  · rfl

theorem takeTokens_some {n : ℕ} {ts : List (Option α)} {bs : List α} (h : (takeTokens n ts).1 = some bs) :
    bs.length = n ∧ ts = bs.map some ++ (takeTokens n ts).2 := by
  induction n generalizing ts bs with
  | zero => simp [takeTokens] at h; subst h; simp [takeTokens]
  | succ n ih =>
    match ts with
    | [] => simp [takeTokens] at h
    | none :: ts => simp [takeTokens] at h
    | some b :: ts =>
      simp only [takeTokens, Option.map_eq_some_iff] at h
      obtain ⟨bs', h, rfl⟩ := h
      obtain ⟨h1, h2⟩ := ih h
      refine ⟨by simp [h1], ?_⟩
      show some b :: ts = some b :: (bs'.map some ++ (takeTokens n ts).2)
      rw [← h2]

theorem takeTokens_none {n : ℕ} {ts : List (Option α)} (h : (takeTokens n ts).1 = none) :
    ∃ (bs : List α) (rest : List (Option α)),
      bs.length < n ∧ ts = bs.map some ++ rest ∧ Stops rest (takeTokens n ts).2 := by
  induction n generalizing ts with
  | zero => cases h
  | succ n ih =>
    match ts with
    | [] => exact ⟨[], [], Nat.succ_pos n, rfl, .inl ⟨rfl, rfl⟩⟩
    | none :: ts => exact ⟨[], none :: ts, Nat.succ_pos n, rfl, .inr rfl⟩
    | some b :: ts =>
      simp only [takeTokens, Option.map_eq_none_iff] at h
      obtain ⟨bs, rest, hlt, heq, hs⟩ := ih h
      exact ⟨b :: bs, rest, Nat.succ_lt_succ hlt, congrArg (some b :: ·) heq, hs⟩

theorem length_unread_some {n : ℕ} {c c' : Conn α} {bs : List α} (h : readFull n c = (some bs, c')) :
    bs.length = n ∧ (unread c).length = n + (unread c').length := by
  obtain ⟨h1, h2⟩ := readFull_eq n c
  rw [h] at h1 h2
  obtain ⟨hn, hts⟩ := takeTokens_some h1.symm
  refine ⟨hn, ?_⟩
  rw [← h2] at hts
  rw [unread, hts, List.filterMap_append, List.length_append, List.filterMap_map]
  simp [unread, hn]

/-- What was read before the stop is lost. -/
theorem length_unread_none {n : ℕ} {c c' : Conn α} (h : readFull n c = (none, c')) :
    (unread c).length < n + (unread c').length := by
  obtain ⟨h1, h2⟩ := readFull_eq n c
  rw [h] at h1 h2
  obtain ⟨bs, rest, hn, hts, hs⟩ := takeTokens_none h1.symm
  rw [← h2] at hs
  rw [unread, hts, List.filterMap_append, List.length_append, List.filterMap_map]
  rcases hs with ⟨rfl, hnil⟩ | rfl
  · simp only [unread, hnil]
    simpa using hn
  · simpa [unread] using hn

end Reads
