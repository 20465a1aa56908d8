import Mathlib.Algebra.Ring.Int.Defs
import Mathlib.Algebra.Ring.Nat
import Mathlib.Data.List.TakeWhile

/-!
# Strings in buffers

A buffer is a list of bytes and a pointer into it an offset. `StrAt buf off s` says that the string `s`
stands at `off`, with the NUL behind it. `strtok` works on the buffer, as in C: it puts a NUL behind the
token and saves a pointer to what follows. `token` is what it means for the strings (`strtok_of_token`).
-/

namespace CStrings

/-! ### Tokens -/

section Tokens
variable {α : Type*} [DecidableEq α] {delims s tok rest : List α} {d : α}

theorem decide_ne_of_not_mem (h : d ∉ s) : ∀ b ∈ s, decide (b ≠ d) = true := by
  intro b hb
  rw [decide_eq_true_eq]
  rintro rfl
  exact h hb

theorem takeWhile_append_ne (h : d ∉ s) (t : List α) : (s ++ d :: t).takeWhile (· ≠ d) = s := by
  rw [List.takeWhile_append_of_pos (decide_ne_of_not_mem h), List.takeWhile_cons_of_neg (by simp), List.append_nil]

/-- The first token of a string, and what follows the delimiter behind it. -/
def token (delims s : List α) : Option (List α × List α) :=
  match s.dropWhile (· ∈ delims) with
  | [] => none
  | b :: t => some ((b :: t).takeWhile (· ∉ delims), ((b :: t).dropWhile (· ∉ delims)).tail)

theorem token_cons (hd : d ∈ delims) (s : List α) : token delims (d :: s) = token delims s := by
  unfold token
  rw [List.dropWhile_cons_of_pos (by simpa using hd)]

theorem token_cons_of_not_mem (hd : d ∉ delims) (s : List α) :
    token delims (d :: s) = some (d :: s.takeWhile (· ∉ delims), (s.dropWhile (· ∉ delims)).tail) := by
  unfold token
  rw [List.dropWhile_cons_of_neg (by simpa using hd)]
  dsimp only
  rw [List.takeWhile_cons_of_pos (by simpa using hd), List.dropWhile_cons_of_pos (by simpa using hd)]

theorem token_eq_none_iff : token delims s = none ↔ ∀ b ∈ s, b ∈ delims := by
  have hdrop : s.dropWhile (· ∈ delims) = [] ↔ ∀ b ∈ s, b ∈ delims := by simp [List.dropWhile_eq_nil_iff]
  rw [← hdrop]
  unfold token
  split <;> simp [*]

theorem dropWhile_head (s : List α) : ∀ b ∈ (s.dropWhile (· ∉ delims)).head?, b ∈ delims := by
  intro b hb
  have hhead := List.head?_dropWhile_not (· ∉ delims) s
  rw [Option.mem_def.1 hb] at hhead
  simpa using hhead

theorem takeWhile_dropWhile_of_head (h : ∀ b ∈ rest.head?, b ∈ delims) :
    rest.takeWhile (· ∉ delims) = [] ∧ rest.dropWhile (· ∉ delims) = rest := by
  cases rest with
  | nil => exact ⟨rfl, rfl⟩
  | cons c r => simp [h c rfl]

/-- A string that starts with a word, and whatever is behind it. -/
theorem token_append (hs : s ≠ []) (h : ∀ b ∈ s, b ∉ delims) (hrest : ∀ b ∈ rest.head?, b ∈ delims) :
    token delims (s ++ rest) = some (s, rest.tail) := by
  obtain ⟨b, t, rfl⟩ := List.exists_cons_of_ne_nil hs
  have hpos : ∀ c ∈ b :: t, decide (c ∉ delims) = true := by simpa using h
  have hdrop : (b :: t ++ rest).dropWhile (· ∈ delims) = b :: (t ++ rest) :=
    List.dropWhile_cons_of_neg (by simpa using h b List.mem_cons_self)
  have hstop := takeWhile_dropWhile_of_head hrest
  unfold token
  rw [hdrop]
  dsimp only
  rw [← List.cons_append, List.takeWhile_append_of_pos hpos, List.dropWhile_append_of_pos hpos, hstop.1, hstop.2,
    List.append_nil]

/-- What a token is: the string up to it is delimiters, and it ends at one or at the end. -/
theorem token_eq_some (h : token delims s = some (tok, rest)) :
    ∃ skip more, s = skip ++ (tok ++ more) ∧ (∀ b ∈ skip, b ∈ delims) ∧ tok ≠ [] ∧ (∀ b ∈ tok, b ∉ delims) ∧
      (∀ b ∈ more.head?, b ∈ delims) ∧ rest = more.tail := by
  unfold token at h
  split at h
  · cases h
  · rename_i b t hdrop
    obtain ⟨htok, hrest⟩ := Prod.mk.inj (Option.some.inj h)
    have hb : b ∉ delims := by
      have hhead := List.head?_dropWhile_not (· ∈ delims) s
      rw [hdrop] at hhead
      simpa using hhead
    refine ⟨s.takeWhile (· ∈ delims), (b :: t).dropWhile (· ∉ delims), ?_, ?_, ?_, ?_, ?_, hrest.symm⟩
    · rw [← htok, List.takeWhile_append_dropWhile, ← hdrop, List.takeWhile_append_dropWhile]
    · intro c hc
      simpa using List.mem_takeWhile_imp hc
    · rw [← htok, List.takeWhile_cons_of_pos (by simpa using hb)]
      exact List.cons_ne_nil _ _
    · intro c hc
      rw [← htok] at hc
      simpa using List.mem_takeWhile_imp hc
    · exact dropWhile_head (b :: t)

theorem token_rest_mem (h : token delims s = some (tok, rest)) : ∀ b ∈ rest, b ∈ s := by
  obtain ⟨skip, more, rfl, -, -, -, -, rfl⟩ := token_eq_some h
  exact fun b hb => by simp [List.mem_of_mem_tail hb]

theorem token_mem (h : token delims s = some (tok, rest)) : ∀ b ∈ tok, b ∈ s ∧ b ∉ delims := by
  obtain ⟨skip, more, rfl, -, -, htok, -, -⟩ := token_eq_some h
  exact fun b hb => ⟨by simp [hb], htok b hb⟩

end Tokens

/-! ### Strings -/

/-- The string at `off`, `none` if the buffer ends before it does. -/
def str (buf : List UInt8) (off : ℕ) : Option (List UInt8) :=
  if 0 ∈ buf.drop off then some ((buf.drop off).takeWhile (· ≠ 0)) else none

/-- Write a string and its NUL, `none` if they do not fit. -/
def put (buf : List UInt8) (off : ℕ) (s : List UInt8) : Option (List UInt8) :=
  if off + s.length < buf.length then some (buf.take off ++ (s ++ 0 :: buf.drop (off + s.length + 1))) else none

def strcpy (buf s : List UInt8) : Option (List UInt8) := put buf 0 s

def strcat (buf s : List UInt8) : Option (List UInt8) := do put buf (← str buf 0).length s

def strspn (s accept : List UInt8) : ℕ := (s.takeWhile (· ∈ accept)).length

def strcspn (s reject : List UInt8) : ℕ := (s.takeWhile (· ∉ reject)).length

/-- Start looking at `off`: the token or NULL, the buffer, and the saved pointer. -/
def strtok (delims buf : List UInt8) (off : ℕ) : Option (Option ℕ × List UInt8 × ℕ) := do
  let s ← str buf off
  let start := strspn s delims
  let stop := start + strcspn (s.drop start) delims
  if start = s.length then return (none, buf, off + start)
  else if stop = s.length then return (some (off + start), buf, off + stop)
  else return (some (off + start), buf.set (off + stop) 0, off + stop + 1)

/-- What `isspace` holds of. -/
def spaces : List UInt8 := [' ', '\t', '\n', '\x0b', '\x0c', '\r'].map Char.toUInt8

/-- `%s` of a `sscanf`: the next word of what is left of the string goes to `buf`, and the space behind it, which
the next `%s` would skip, is taken with it. Without a word the call is over, and leaves this target and the others
as they are. -/
def scanWord (s : Option (List UInt8)) (buf : List UInt8) : Option (Option (List UInt8) × List UInt8) :=
  match s.bind (token spaces) with
  | none => some (none, buf)
  | some (word, rest) => (put buf 0 word).map (some rest, ·)

def isDigit (b : UInt8) : Bool := '0'.toUInt8 ≤ b && b ≤ '9'.toUInt8

/-- The value of a string of digits. -/
def decimal (s : List UInt8) : ℕ := s.foldl (fun n b => 10 * n + (b - '0'.toUInt8).toNat) 0

/-- `none` where the number is none of an `int`. -/
def atoi (s : List UInt8) : Option ℤ :=
  -- 45 is a minus, 43 a plus.
  let number := match s.dropWhile (· ∈ spaces) with
    | 45 :: t => -(decimal (t.takeWhile isDigit) : ℤ)
    | 43 :: t => decimal (t.takeWhile isDigit)
    | t => decimal (t.takeWhile isDigit)
  if -2 ^ 31 ≤ number ∧ number < 2 ^ 31 then some number else none

theorem not_mem_of_isDigit {b : UInt8} {l : List UInt8} (h : isDigit b) (hl : l.any isDigit = false) : b ∉ l :=
  fun hb => List.any_eq_false.1 hl b hb h

theorem atoi_eq {s : List UInt8} (h : ∀ b ∈ s, isDigit b) (hlt : decimal s < 2 ^ 31) :
    atoi s = some (decimal s : ℤ) := by
  have hskip : s.dropWhile (· ∈ spaces) = s := by
    cases s with
    | nil => rfl
    | cons b t =>
      refine List.dropWhile_cons_of_neg ?_
      rw [decide_eq_true_eq]
      exact not_mem_of_isDigit (h b List.mem_cons_self) rfl
  have hall : s.takeWhile isDigit = s := List.takeWhile_eq_self_iff.2 h
  have hrange : -2 ^ 31 ≤ (decimal s : ℤ) ∧ (decimal s : ℤ) < 2 ^ 31 := by omega
  unfold atoi
  rw [hskip]
  split
  · exact absurd (h 45 List.mem_cons_self) (by decide)
  · exact absurd (h 43 List.mem_cons_self) (by decide)
  · rw [hall, if_pos hrange]

structure StrAt (buf : List UInt8) (off : ℕ) (s : List UInt8) : Prop where
  noNul : 0 ∉ s
  eq_append : ∃ pre post, pre.length = off ∧ buf = pre ++ (s ++ 0 :: post)

variable {buf buf' s t tok rest delims : List UInt8} {off : ℕ}

theorem StrAt.str_eq (h : StrAt buf off s) : str buf off = some s := by
  obtain ⟨pre, post, hpre, rfl⟩ := h.eq_append
  unfold str
  rw [List.drop_left' hpre, if_pos (by simp), takeWhile_append_ne h.noNul]

/-- The string of a buffer of which only the front is known. -/
theorem str_append_nul (s post : List UInt8) : str (s ++ 0 :: post) 0 = some (s.takeWhile (· ≠ 0)) := by
  unfold str
  rw [List.drop_zero, if_pos (by simp), List.takeWhile_append]
  split
  · rename_i hall
    rw [(List.takeWhile_prefix _).eq_of_length hall]
    simp
  · rfl

theorem StrAt.length_lt (h : StrAt buf off s) : off + s.length < buf.length := by
  obtain ⟨pre, post, hpre, rfl⟩ := h.eq_append
  simp only [List.length_append, List.length_cons]
  omega

theorem isPrefixOf_append_nul {word : List UInt8} (hword : 0 ∉ word) (s post : List UInt8) :
    word.isPrefixOf (s ++ 0 :: post) = word.isPrefixOf s := by
  induction word generalizing s with
  | nil => simp [List.isPrefixOf]
  | cons b word ih =>
    simp only [List.mem_cons, not_or] at hword
    cases s with
    | nil => simp [List.isPrefixOf, Ne.symm hword.1]
    | cons c s => simp [List.isPrefixOf, ih hword.2]

theorem StrAt.set {i : ℕ} (h : StrAt buf off s) (hi : off + s.length < i) (b : UInt8) :
    StrAt (buf.set i b) off s := by
  obtain ⟨pre, post, hpre, rfl⟩ := h.eq_append
  refine ⟨h.noNul, pre, post.set (i - (off + s.length + 1)) b, hpre, ?_⟩
  rw [List.set_append_right _ _ (by omega), List.set_append_right _ _ (by omega)]
  obtain ⟨k, hk⟩ : ∃ k, i - pre.length - s.length = k + 1 := ⟨i - pre.length - s.length - 1, by omega⟩
  rw [hk, List.set_cons_succ]
  congr 4
  omega

/-- A string behind what `put` writes is left alone. -/
theorem strAt_put (hs : 0 ∉ s) (hlen : off + s.length < buf.length) :
    ∃ buf', put buf off s = some buf' ∧ buf'.length = buf.length ∧ StrAt buf' off s ∧
      ∀ o t, off + s.length < o → StrAt buf o t → StrAt buf' o t := by
  have htake : (buf.take off).length = off := by
    rw [List.length_take]
    omega
  refine ⟨_, if_pos hlen, ?_, ⟨hs, buf.take off, buf.drop (off + s.length + 1), htake, rfl⟩, ?_⟩
  · simp only [List.length_append, List.length_take, List.length_cons, List.length_drop]
    omega
  · intro o t ho ht
    obtain ⟨pre, post, hpre, rfl⟩ := ht.eq_append
    refine ⟨ht.noNul, pre.take off ++ (s ++ 0 :: pre.drop (off + s.length + 1)), post, ?_, ?_⟩
    · simp only [List.length_append, List.length_take, List.length_cons, List.length_drop]
      omega
    · rw [List.take_append_of_le_length (by omega), List.drop_append_of_le_length (by omega)]
      simp only [List.append_assoc, List.cons_append]

/-- A string in a buffer of zeros, if it fits, is what is read from it. -/
theorem str_put_replicate (hs : 0 ∉ s) (n : ℕ) :
    (put (List.replicate n 0) 0 s).bind (str · 0) = if s.length < n then some s else none := by
  have hlen : 0 + s.length < (List.replicate n (0 : UInt8)).length ↔ s.length < n := by
    rw [Nat.zero_add, List.length_replicate]
  split
  · rename_i hlt
    obtain ⟨buf', hput, -, hat, -⟩ := strAt_put hs (hlen.2 hlt)
    rw [hput, Option.bind_some, hat.str_eq]
  · rename_i hlt
    rw [show put (List.replicate n 0) 0 s = none from if_neg (hlt ∘ hlen.1), Option.bind_none]

theorem strcpy_eq (hs : 0 ∉ s) (hlen : s.length < buf.length) :
    ∃ buf', strcpy buf s = some buf' ∧ buf'.length = buf.length ∧ StrAt buf' 0 s := by
  obtain ⟨buf', hput, hlen', hat, -⟩ := strAt_put hs (by rwa [Nat.zero_add] : 0 + s.length < buf.length)
  exact ⟨buf', hput, hlen', hat⟩

theorem scanWord_eq (h : token spaces s = some (tok, rest)) (hs : 0 ∉ s) (hlen : tok.length < buf.length) :
    ∃ buf', scanWord (some s) buf = some (some rest, buf') ∧ buf'.length = buf.length ∧ StrAt buf' 0 tok ∧
      0 ∉ rest := by
  obtain ⟨buf', hcpy, hlen', hat⟩ := strcpy_eq (fun h0 => hs (token_mem h 0 h0).1) hlen
  refine ⟨buf', ?_, hlen', hat, fun h0 => hs (token_rest_mem h 0 h0)⟩
  unfold scanWord
  rw [Option.bind_some, h]
  exact congrArg (Option.map (some rest, ·)) hcpy

theorem scanWord_eq_none (h : token spaces s = some (tok, rest)) (hlen : buf.length ≤ tok.length) :
    scanWord (some s) buf = none := by
  have hput : put buf 0 tok = none := if_neg (by omega)
  unfold scanWord
  rw [Option.bind_some, h]
  exact congrArg (Option.map (some rest, ·)) hput

theorem strcat_eq (h : StrAt buf 0 t) (hs : 0 ∉ s) (hlen : t.length + s.length < buf.length) :
    ∃ buf', strcat buf s = some buf' ∧ buf'.length = buf.length ∧ StrAt buf' 0 (t ++ s) := by
  obtain ⟨pre, post, hpre, hbuf⟩ := h.eq_append
  obtain rfl := List.length_eq_zero_iff.1 hpre
  obtain ⟨buf', hput, hlen', hat, -⟩ := strAt_put hs hlen
  refine ⟨buf', ?_, hlen', ⟨?_, [], buf.drop (t.length + s.length + 1), rfl, ?_⟩⟩
  · unfold strcat
    rw [h.str_eq]
    exact hput
  · simp [h.noNul, hs]
  · unfold put at hput
    rw [if_pos hlen] at hput
    cases hput
    rw [hbuf, List.nil_append, List.take_left]
    simp

theorem strspn_append (h : ∀ b ∈ s, b ∈ delims) (ht : ∀ b ∈ t.head?, b ∉ delims) :
    strspn (s ++ t) delims = s.length := by
  have hstop : t.takeWhile (· ∈ delims) = [] := by
    cases t with
    | nil => rfl
    | cons c r => exact List.takeWhile_cons_of_neg (by simpa using ht c rfl)
  unfold strspn
  rw [List.takeWhile_append_of_pos (by simpa using h), hstop, List.append_nil]

theorem strcspn_append (h : ∀ b ∈ s, b ∉ delims) (ht : ∀ b ∈ t.head?, b ∈ delims) :
    strcspn (s ++ t) delims = s.length := by
  unfold strcspn
  rw [List.takeWhile_append_of_pos (by simpa using h), (takeWhile_dropWhile_of_head ht).1, List.append_nil]

/-- Where the string has no token there is none in the buffer. -/
theorem strtok_of_none (h : StrAt buf off s) (ht : token delims s = none) :
    strtok delims buf off = some (none, buf, off + s.length) := by
  have hspan := strspn_append (t := []) (token_eq_none_iff.1 ht) (by simp)
  rw [List.append_nil] at hspan
  unfold strtok
  simp [h.str_eq, hspan]

/-- The token and the rest, where `strtok` leaves them. A string in front of them is left alone. -/
theorem strtok_of_token (h : StrAt buf off s) (ht : token delims s = some (tok, rest)) :
    ∃ p buf' save, strtok delims buf off = some (some p, buf', save) ∧ buf'.length = buf.length ∧
      StrAt buf' p tok ∧ StrAt buf' save rest ∧ off ≤ p ∧ p + tok.length ≤ save ∧
      ∀ o t, o + t.length < off → StrAt buf o t → StrAt buf' o t := by
  obtain ⟨skip, more, rfl, hskip, htok0, htok, hmore, rfl⟩ := token_eq_some ht
  obtain ⟨pre, post, hpre, hbuf⟩ := h.eq_append
  have hnul := h.noNul
  simp only [List.mem_append, not_or] at hnul
  have hhead : ∀ b ∈ (tok ++ more).head?, b ∉ delims := by
    obtain ⟨b, u, rfl⟩ := List.exists_cons_of_ne_nil htok0
    intro c hc
    cases hc
    exact htok b List.mem_cons_self
  have hpos := List.length_pos_iff.2 htok0
  have hstart := strspn_append hskip hhead
  have hstop := strcspn_append htok hmore
  unfold strtok
  rw [h.str_eq, Option.bind_eq_bind, Option.bind_some, hstart]
  dsimp only
  rw [List.drop_left, hstop, if_neg (by simp [htok0])]
  cases more with
  | nil =>
    rw [if_pos (by simp)]
    refine ⟨_, _, _, rfl, rfl, ⟨hnul.2.1, pre ++ skip, post, ?_, ?_⟩,
      ⟨List.not_mem_nil, pre ++ (skip ++ tok), post, ?_, ?_⟩, by omega, by omega, fun _ _ _ ho => ho⟩
    · simp [hpre]
    · simp [hbuf]
    · simp [hpre]
    · simp [hbuf]
  | cons d more =>
    have hset : buf.set (off + (skip.length + tok.length)) 0 = pre ++ skip ++ (tok ++ 0 :: (more ++ 0 :: post)) := by
      have hbuf' : buf = pre ++ skip ++ tok ++ d :: (more ++ 0 :: post) := by simp [hbuf]
      have hi : off + (skip.length + tok.length) = (pre ++ skip ++ tok).length := by simp [hpre]
      rw [hbuf', hi, List.set_append_right _ _ le_rfl, Nat.sub_self, List.set_cons_zero, List.append_assoc _ tok]
    rw [if_neg (by simp)]
    refine ⟨_, _, _, rfl, List.length_set, ⟨hnul.2.1, pre ++ skip, more ++ 0 :: post, ?_, hset⟩,
      ⟨?_, pre ++ skip ++ (tok ++ [0]), post, ?_, ?_⟩, by omega, by omega, fun o t ho hat => hat.set (by omega) 0⟩
    · simp [hpre]
    · simp only [List.mem_cons, not_or] at hnul
      exact hnul.2.2.2
    · simp [hpre]
      omega
    · rw [hset]
      simp

/-- A token that is moved to the front of its buffer: what follows it is still there. -/
theorem strtok_put (h : StrAt buf off s) (hoff : 0 < off) (ht : token delims s = some (tok, rest)) :
    ∃ p b save b', strtok delims buf off = some (some p, b, save) ∧ str b p = some tok ∧ put b 0 tok = some b' ∧
      tok.length < save ∧ StrAt b' 0 tok ∧ StrAt b' save rest := by
  obtain ⟨p, b, save, hstrtok, -, htok, hrest, hp, hsave, -⟩ := strtok_of_token h ht
  have hlen := htok.length_lt
  obtain ⟨b', hput, -, hat, hkeep⟩ := strAt_put htok.noNul (by omega : 0 + tok.length < b.length)
  exact ⟨p, b, save, b', hstrtok, htok.str_eq, hput, by omega, hat, hkeep save rest (by omega) hrest⟩

end CStrings
