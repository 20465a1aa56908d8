import Mathlib.Data.Bool.AllAny
import Rabin.Lib.CStrings

/-!
# The example proxy

What the child that `normalproxy` forks does with a request: it takes the request line apart, with `sscanf`
and two rows of calls of `strtok` that write into the arrays they read from, and asks the host it found for the
rest of the URL. Below `serve` the same on strings: `urlHost` and `urlPath` are what the two rows find in the part
of the URL behind `http://`.
-/

namespace Rabin
open CStrings

namespace NormalProxy

/-- The bytes of a text. -/
def text (s : String) : List UInt8 := s.toList.map Char.toUInt8

/-- The arrays of the child, with whatever is in them before. -/
structure Locals where
  buffer : List UInt8
  t1 : List UInt8
  t2 : List UInt8
  t3 : List UInt8
  length_buffer : buffer.length = 510
  length_t1 : t1.length = 300
  length_t2 : t2.length = 300
  length_t3 : t3.length = 10

/-- What it wants upstream: the name given to `gethostbyname`, the port to connect to there, and what it sends when
it is connected. -/
structure Upstream where
  host : List UInt8
  port : ℕ
  sent : List UInt8
deriving DecidableEq

inductive Answer where
  | forward (up : Upstream)
  | badRequest
deriving DecidableEq

/-- `strncmp(buf, word, strlen(word)) == 0` -/
def startsWith (buf word : List UInt8) : Bool := word.isPrefixOf buf

/-- `bzero`, `recv` and `sscanf`. -/
def readLine (loc : Locals) (received : List UInt8) : Option (List UInt8 × List UInt8 × List UInt8) := do
  let buffer := received.take 500 ++ List.replicate (500 - received.length) 0 ++ loc.buffer.drop 500
  let line ← str buffer 0
  let (line, t1) ← scanWord (some line) loc.t1
  let (line, t2) ← scanWord line loc.t2
  let (_, t3) ← scanWord line loc.t3
  return (t1, t2, t3)

/-- The row of calls on `t2`: the name looked up, what `t2` is then, and the port. -/
def findHost (t2 : List UInt8) : Option (List UInt8 × List UInt8 × ℤ) := do
  let url ← str t2 0
  let flag := (url.drop 7).any (· = ':'.toUInt8)
  let (_, t2, save) ← strtok (text "//") t2 0
  let (temp, t2, save) ← strtok (text (if flag then ":" else "/")) t2 save
  -- What is printed lies in `t2` itself, further on; it is taken to be read before it is written over.
  let t2 ← put t2 0 (← str t2 (← temp))
  let host ← str t2 0
  if flag then
    let (temp, t2, _) ← strtok (text "/") t2 save
    return (host, t2, ← atoi (← str t2 (← temp)))
  else return (host, t2, 80)

/-- The row of calls on `t1`, behind which the end of the URL is marked. -/
def findPath (t1 : List UInt8) : Option (Option (List UInt8)) := do
  let t1 ← strcat t1 (text "^]")
  let (_, t1, save) ← strtok (text "//") t1 0
  let (temp, t1, save) ← strtok (text "/") t1 save
  if temp = none then return none
  let (temp, t1, _) ← strtok (text "^]") t1 save
  match temp with
  | none => return none
  | some temp => return some (← str t1 temp)

/-- The two formats. -/
def upstreamRequest (path : Option (List UInt8)) (version host : List UInt8) : List UInt8 :=
  match path with
  | some path =>
    text "GET /" ++ path ++ text " " ++ version ++ text "\r\nHost: " ++ host ++ text "\r\nConnection: close\r\n\r\n"
  | none => text "GET / " ++ version ++ text "\r\nHost: " ++ host ++ text "\r\nConnection: close\r\n\r\n"

/-- `none` where it reads or writes outside an array or through NULL. -/
def serve (loc : Locals) (received : List UInt8) : Option Answer := do
  let (t1, t2, t3) ← readLine loc received
  if startsWith t1 (text "GET") && (startsWith t3 (text "HTTP/1.1") || startsWith t3 (text "HTTP/1.0")) &&
      startsWith t2 (text "http://") then
    let t1 ← strcpy t1 (← str t2 0)
    let (host, t2, port) ← findHost t2
    let path ← findPath t1
    -- `buffer` has been zeroed once more.
    let buffer ← put (List.replicate 510 0) 0 (upstreamRequest path (← str t3 0) (← str t2 0))
    return .forward ⟨host, (port % 2 ^ 16).toNat, ← str buffer 0⟩
  else return .badRequest

/-! ### The same on strings -/

/-- The host and the port, in what follows `http://`. -/
def urlHost (x : List UInt8) : Option (List UInt8 × ℤ) :=
  if ':'.toUInt8 ∈ x then do
    let (host, rest) ← token (text ":") ('/'.toUInt8 :: x)
    let (port, _) ← token (text "/") rest
    return (host, ← atoi port)
  else (token (text "/") x).map fun (host, _) => (host, 80)

/-- The path, in what follows `http://`. -/
def urlPath (x : List UInt8) : Option (List UInt8) := do
  let (_, rest) ← token (text "/") (x ++ text "^]")
  let (path, _) ← token (text "^]") rest
  return path

def answer (x version : List UInt8) : Option Answer :=
  if startsWith version (text "HTTP/1.1") || startsWith version (text "HTTP/1.0") then do
    let (host, port) ← urlHost x
    let sent := upstreamRequest (urlPath x) version host
    if sent.length < 510 then return .forward ⟨host, (port % 2 ^ 16).toNat, sent⟩ else none
  else some .badRequest

variable {loc : Locals} {received t1 t2 x version host r₁ r₂ r₃ : List UInt8}

theorem token_scheme (x : List UInt8) :
    token (text "//") (text "http://" ++ x) = some (text "http:", '/'.toUInt8 :: x) := by
  have hsplit : text "http://" ++ x = text "http:" ++ '/'.toUInt8 :: '/'.toUInt8 :: x := rfl
  rw [hsplit]
  exact token_append (List.cons_ne_nil _ _) (List.all_iff_forall_prop.1 rfl) (by simp [text])

theorem token_slash (x : List UInt8) : token (text "/") ('/'.toUInt8 :: x) = token (text "/") x :=
  token_cons (by simp [text]) x

theorem any_colon (x : List UInt8) :
    ((text "http://" ++ x).drop 7).any (· = ':'.toUInt8) = decide (':'.toUInt8 ∈ x) := by
  have hlen : (text "http://").length = 7 := rfl
  rw [List.drop_left' hlen, Bool.eq_iff_iff]
  simp

/-- The row of calls on `t2` finds `urlHost`, and leaves the name in `t2`. -/
theorem findHost_eq (h : StrAt t2 0 (text "http://" ++ x)) :
    (urlHost x = none ∧ findHost t2 = none) ∨
    ∃ host port t2', urlHost x = some (host, port) ∧ findHost t2 = some (host, t2', port) ∧ StrAt t2' 0 host := by
  obtain ⟨p₁, b₁, s₁, htok₁, -, -, hrest₁, -, hp₁, -⟩ := strtok_of_token h (token_scheme x)
  have hs₁ : 0 < s₁ := lt_of_lt_of_le (Nat.succ_pos 4) (le_trans (Nat.le_add_left 5 p₁) hp₁)
  unfold findHost urlHost
  simp only [h.str_eq, any_colon, htok₁, Option.bind_eq_bind, Option.bind_some, decide_eq_true_eq]
  by_cases hx : ':'.toUInt8 ∈ x
  · simp only [if_pos hx]
    match ht : token (text ":") ('/'.toUInt8 :: x) with
    | none => exact .inl ⟨rfl, by simp [strtok_of_none hrest₁ ht]⟩
    | some (host, rest) =>
      obtain ⟨p₂, b₂, s₂, b₃, htok₂, hstr₂, hput, hlt, hhost, hrest₂⟩ := strtok_put hrest₁ hs₁ ht
      simp only [htok₂, hstr₂, hput, hhost.str_eq, Option.bind_some]
      match ht' : token (text "/") rest with
      | none => exact .inl ⟨rfl, by simp [strtok_of_none hrest₂ ht']⟩
      | some (port, rest') =>
        obtain ⟨p₃, b₄, s₃, htok₃, -, hport, -, -, -, hkeep⟩ := strtok_of_token hrest₂ ht'
        simp only [htok₃, hport.str_eq, Option.bind_some]
        cases atoi port with
        | none => exact .inl ⟨rfl, rfl⟩
        | some n => exact .inr ⟨host, n, b₄, rfl, rfl, hkeep 0 host (by omega) hhost⟩
  · simp only [if_neg hx]
    match ht : token (text "/") x with
    | none => exact .inl ⟨rfl, by simp [strtok_of_none hrest₁ ((token_slash x).trans ht)]⟩
    | some (host, rest) =>
      obtain ⟨p₂, b₂, s₂, b₃, htok₂, hstr₂, hput, -, hhost, -⟩ := strtok_put hrest₁ hs₁ ((token_slash x).trans ht)
      refine .inr ⟨host, 80, b₃, rfl, ?_, hhost⟩
      simp [htok₂, hstr₂, hput, hhost.str_eq]

theorem noNul_words : 0 ∉ text "GET" ∧ 0 ∉ text "http://" ∧ 0 ∉ text "HTTP/1.1" ∧ 0 ∉ text "HTTP/1.0" := by
  simp [text, Char.toUInt8]

theorem noNul_endMark : 0 ∉ text "^]" := by simp [text, Char.toUInt8]

/-- The row of calls on `t1` finds `urlPath`. -/
theorem findPath_eq (h : StrAt t1 0 (text "http://" ++ x)) (hlen : (text "http://" ++ x).length + 2 < t1.length) :
    findPath t1 = some (urlPath x) := by
  obtain ⟨b, hcat, -, hat⟩ := strcat_eq h noNul_endMark hlen
  rw [List.append_assoc] at hat
  obtain ⟨p₁, b₁, s₁, htok₁, -, -, hrest₁, -, -, -⟩ := strtok_of_token hat (token_scheme (x ++ text "^]"))
  unfold findPath urlPath
  simp only [hcat, htok₁, Option.bind_eq_bind, Option.bind_some]
  match ht : token (text "/") (x ++ text "^]") with
  | none => simp [strtok_of_none hrest₁ ((token_slash _).trans ht)]
  | some (host, rest) =>
    obtain ⟨p₂, b₂, s₂, htok₂, -, -, hrest₂, -, -, -⟩ := strtok_of_token hrest₁ ((token_slash _).trans ht)
    simp only [htok₂, Option.bind_some]
    match ht' : token (text "^]") rest with
    | none => simp [strtok_of_none hrest₂ ht']
    | some (path, rest') =>
      obtain ⟨p₃, b₃, s₃, htok₃, -, hpath, -, -, -, -⟩ := strtok_of_token hrest₂ ht'
      simp [htok₃, hpath.str_eq]

/-- What a path is made of. -/
theorem mem_of_urlPath {b : UInt8} (h : b ∈ (urlPath x).getD []) : b ∈ x ∧ b ∉ text "^]" := by
  cases hpath : urlPath x with
  | none =>
    rw [hpath] at h
    cases h
  | some path =>
    rw [hpath, Option.getD_some] at h
    obtain ⟨⟨host, rest⟩, h₁, hpath⟩ := Option.bind_eq_some_iff.1 hpath
    obtain ⟨⟨path', rest'⟩, h₂, hpath⟩ := Option.bind_eq_some_iff.1 hpath
    cases hpath
    obtain ⟨hmem, hmark⟩ := token_mem h₂ b h
    exact ⟨(List.mem_append.1 (token_rest_mem h₁ b hmem)).resolve_right hmark, hmark⟩

/-- The two formats are one. -/
theorem upstreamRequest_eq (path : Option (List UInt8)) (version host : List UInt8) :
    upstreamRequest path version host = text "GET /" ++ path.getD [] ++ text " " ++ version ++
      text "\r\nHost: " ++ host ++ text "\r\nConnection: close\r\n\r\n" := by
  cases path with
  | none => rfl
  | some path => rfl

/-- What a request line asks for can be read off it. -/
theorem takeWhile_request {path : List UInt8} (h : ' '.toUInt8 ∉ path) (y : List UInt8) :
    ((text "GET /" ++ (path ++ (text " " ++ y))).drop 5).takeWhile (· ≠ ' '.toUInt8) = path := by
  have hlen : (text "GET /").length = 5 := rfl
  rw [List.drop_left' hlen]
  exact takeWhile_append_ne h y

theorem noNul_upstreamRequest {path : Option (List UInt8)} (hpath : 0 ∉ path.getD []) (hversion : 0 ∉ version)
    (hhost : 0 ∉ host) : 0 ∉ upstreamRequest path version host := by
  have htexts : 0 ∉ text "GET /" ∧ 0 ∉ text " " ∧ 0 ∉ text "\r\nHost: " ∧
      0 ∉ text "\r\nConnection: close\r\n\r\n" := by simp [text, Char.toUInt8]
  rw [upstreamRequest_eq]
  simp [htexts, hpath, hversion, hhost]

/-- With a colon behind it, the slash in front of the host is part of the name. -/
theorem slash_mem_host {port : ℤ} (hx : ':'.toUInt8 ∈ x) (h : urlHost x = some (host, port)) :
    '/'.toUInt8 ∈ host := by
  unfold urlHost at h
  rw [if_pos hx] at h
  obtain ⟨⟨name, rest⟩, h₁, h⟩ := Option.bind_eq_some_iff.1 h
  obtain ⟨⟨digits, rest'⟩, h₂, h⟩ := Option.bind_eq_some_iff.1 h
  obtain ⟨n, h₃, h⟩ := Option.bind_eq_some_iff.1 h
  cases h
  rw [token_cons_of_not_mem (by simp [text, Char.toUInt8])] at h₁
  cases h₁
  exact List.mem_cons_self

def pathPart (path : Option (List UInt8)) : List UInt8 := (path.map ('/'.toUInt8 :: ·)).getD []

theorem pathPart_head (path : Option (List UInt8)) : ∀ b ∈ (pathPart path).head?, b ∈ text "/" := by
  cases path <;> simp [pathPart, text]

section Authority
variable (hne : host ≠ []) (hhost : ∀ b ∈ host, b ∉ text "/")
include hne hhost

theorem urlHost_append {rest : List UInt8} (hrest : ∀ b ∈ rest.head?, b ∈ text "/")
    (hcolon : ':'.toUInt8 ∉ host ++ rest) : urlHost (host ++ rest) = some (host, 80) := by
  unfold urlHost
  rw [if_neg hcolon, token_append hne hhost hrest]
  rfl

/-- The mark behind the URL ends the path and is no part of it. -/
theorem urlPath_append (path : Option (List UInt8)) (hpath : ∀ b ∈ path.getD [], b ∉ text "^]") :
    (urlPath (host ++ pathPart path)).getD [] = path.getD [] := by
  unfold urlPath pathPart
  cases path with
  | none =>
    have htok : token (text "/") (host ++ text "^]" ++ []) = some (host ++ text "^]", []) :=
      token_append (by simp [hne]) (List.forall_mem_append.2 ⟨hhost, List.all_iff_forall_prop.1 rfl⟩) (by simp)
    rw [List.append_nil] at htok
    rw [Option.map_none, Option.getD_none, List.append_nil, htok]
    rfl
  | some q =>
    have htok : token (text "/") (host ++ '/'.toUInt8 :: (q ++ text "^]")) = some (host, q ++ text "^]") :=
      token_append hne hhost (by simp [text])
    simp only [Option.map_some, Option.getD_some, List.append_assoc, List.cons_append] at hpath ⊢
    rw [htok]
    cases q with
    | nil => rfl
    | cons b q =>
      have htok' : token (text "^]") (b :: q ++ text "^]") = some (b :: q, text "]") :=
        token_append (List.cons_ne_nil b q) hpath fun c hc => List.mem_of_mem_head? hc
      simp only [Option.bind_eq_bind, Option.bind_some, htok']
      rfl

end Authority

theorem answer_forward {port : ℤ} (hversion : version = text "HTTP/1.0" ∨ version = text "HTTP/1.1")
    (hurl : urlHost x = some (host, port)) (hlen : ((urlPath x).getD []).length + host.length < 465) :
    answer x version = some (.forward ⟨host, (port % 2 ^ 16).toNat, upstreamRequest (urlPath x) version host⟩) := by
  have hver : (startsWith version (text "HTTP/1.1") || startsWith version (text "HTTP/1.0")) = true ∧
      version.length = 8 := by rcases hversion with h | h <;> rw [h] <;> decide
  have htexts : (text "GET /").length = 5 ∧ (text " ").length = 1 ∧ (text "\r\nHost: ").length = 8 ∧
      (text "\r\nConnection: close\r\n\r\n").length = 23 := ⟨rfl, rfl, rfl, rfl⟩
  have hsent : (upstreamRequest (urlPath x) version host).length < 510 := by
    rw [upstreamRequest_eq]
    simp only [List.length_append, htexts, hver.2]
    omega
  unfold answer
  rw [if_pos hver.1, hurl, Option.bind_eq_bind, Option.bind_some]
  exact if_pos hsent

theorem answer_eq_forward {up : Upstream} (h : answer x version = some (.forward up)) :
    ∃ port, urlHost x = some (up.host, port) ∧ up.sent = upstreamRequest (urlPath x) version up.host := by
  unfold answer at h
  split at h
  · obtain ⟨⟨name, port⟩, hurl, h⟩ := Option.bind_eq_some_iff.1 h
    dsimp only at h
    split at h
    · cases h
      exact ⟨port, hurl, rfl⟩
    · cases h
  · cases h

theorem startsWith_eq {buf s word : List UInt8} (h : StrAt buf 0 s) (hword : 0 ∉ word) :
    startsWith buf word = startsWith s word := by
  obtain ⟨pre, post, hpre, rfl⟩ := h.eq_append
  rw [List.length_eq_zero_iff.1 hpre, List.nil_append]
  exact isPrefixOf_append_nul hword s post

theorem startsWith_append (word s : List UInt8) : startsWith (word ++ s) word = true :=
  List.isPrefixOf_iff_prefix.2 (List.prefix_append word s)

theorem str_received (loc : Locals) (h : received.length < 500) :
    str (received.take 500 ++ List.replicate (500 - received.length) 0 ++ loc.buffer.drop 500) 0 =
      some (received.takeWhile (· ≠ 0)) := by
  obtain ⟨k, hk⟩ : ∃ k, 500 - received.length = k + 1 := ⟨500 - received.length - 1, by omega⟩
  rw [List.take_of_length_le h.le, hk, List.replicate_succ, List.append_assoc, List.cons_append, str_append_nul]

section Words
variable (h500 : received.length < 500)
  (h₁ : token spaces (received.takeWhile (· ≠ 0)) = some (text "GET", r₁))
  (h₂ : token spaces r₁ = some (text "http://" ++ x, r₂)) (hx : (text "http://" ++ x).length < 298)
  (h₃ : token spaces r₂ = some (version, r₃))
include h500 h₁ h₂ hx

theorem readLine_eq (loc : Locals) :
    ∃ t1 t2, readLine loc received = (scanWord (some r₂) loc.t3).map (fun scanned => (t1, t2, scanned.2)) ∧
      StrAt t1 0 (text "GET") ∧ StrAt t2 0 (text "http://" ++ x) ∧ t1.length = 300 ∧ 0 ∉ r₂ := by
  have hnul : 0 ∉ received.takeWhile (· ≠ 0) := fun h0 => by simpa using List.mem_takeWhile_imp h0
  obtain ⟨t1, hscan₁, hlen₁, hat₁, hr₁⟩ :=
    scanWord_eq h₁ hnul (by rw [loc.length_t1]; decide : (text "GET").length < loc.t1.length)
  obtain ⟨t2, hscan₂, -, hat₂, hr₂⟩ :=
    scanWord_eq h₂ hr₁ (by rw [loc.length_t2]; omega : (text "http://" ++ x).length < loc.t2.length)
  refine ⟨t1, t2, ?_, hat₁, hat₂, hlen₁.trans loc.length_t1, hr₂⟩
  unfold readLine
  dsimp only
  rw [str_received loc h500]
  simp only [hscan₁, hscan₂, Option.bind_eq_bind, Option.bind_some]
  cases scanWord (some r₂) loc.t3 <;> rfl

include h₃

theorem serve_eq_none (hv : ¬ version.length < 10) : serve loc received = none := by
  obtain ⟨t1, t2, hread, -⟩ := readLine_eq h500 h₁ h₂ hx loc
  have hscan := scanWord_eq_none h₃ (by rw [loc.length_t3]; omega : loc.t3.length ≤ version.length)
  unfold serve
  rw [hread, hscan]
  rfl

/-- `serve` does what `answer` says with the words of the line. -/
theorem serve_eq (hv : version.length < 10) : serve loc received = answer x version := by
  obtain ⟨t1, t2, hread, hat₁, hat₂, hlen, hr₂⟩ := readLine_eq h500 h₁ h₂ hx loc
  obtain ⟨t3, hscan, -, hat₃, -⟩ :=
    scanWord_eq h₃ hr₂ (by rwa [loc.length_t3] : version.length < loc.t3.length)
  obtain ⟨t1', hcpy, hlen', hat₁'⟩ := strcpy_eq hat₂.noNul (by omega : _ < t1.length)
  have hpath := findPath_eq hat₁' (by omega)
  have hnul : 0 ∉ (urlPath x).getD [] := fun h0 => hat₂.noNul (List.mem_append_right _ (mem_of_urlPath h0).1)
  have hget : startsWith t1 (text "GET") = true := by
    rw [startsWith_eq hat₁ noNul_words.1]
    decide
  have hscheme : startsWith t2 (text "http://") = true := by
    rw [startsWith_eq hat₂ noNul_words.2.1]
    exact startsWith_append _ x
  unfold serve answer
  rw [hread, hscan, Option.map_some, Option.bind_eq_bind, Option.bind_some]
  dsimp only
  rw [hget, hscheme, startsWith_eq hat₃ noNul_words.2.2.1, startsWith_eq hat₃ noNul_words.2.2.2, Bool.true_and,
    Bool.and_true]
  by_cases hver : (startsWith version (text "HTTP/1.1") || startsWith version (text "HTTP/1.0")) = true
  · rw [if_pos hver, if_pos hver]
    simp only [hat₂.str_eq, hcpy, hpath, hat₃.str_eq, Option.bind_eq_bind, Option.bind_some]
    rcases findHost_eq hat₂ with ⟨hurl, hfind⟩ | ⟨host, port, t2', hurl, hfind, hhost⟩
    · rw [hurl, hfind]
      rfl
    · simp only [hurl, hfind, hhost.str_eq, Option.bind_some]
      have hsent := noNul_upstreamRequest hnul hat₃.noNul hhost.noNul
      rw [← Option.bind_assoc, str_put_replicate hsent]
      split <;> rfl
  · rw [if_neg hver, if_neg hver]
    rfl

end Words

/-! ### Requests -/

/-- `GET http://host[:port][/path] version`, and what follows that line. -/
structure RequestLine where
  host : List UInt8
  port : Option (List UInt8)
  path : Option (List UInt8)
  version : List UInt8
  more : List UInt8

namespace RequestLine

/-- What follows `http://`. -/
def rest (r : RequestLine) : List UInt8 :=
  r.host ++ ((r.port.map (':'.toUInt8 :: ·)).getD [] ++ pathPart r.path)

def bytes (r : RequestLine) : List UInt8 :=
  text "GET" ++ ' '.toUInt8 :: (text "http://" ++ r.rest ++ ' '.toUInt8 :: (r.version ++ r.more))

def portNumber (r : RequestLine) : ℕ := (r.port.map decimal).getD 80

theorem mem_rest (r : RequestLine) {b : UInt8} : b ∈ r.rest ↔
    b ∈ r.host ∨ (∃ p ∈ r.port, b = ':'.toUInt8 ∨ b ∈ p) ∨ ∃ q ∈ r.path, b = '/'.toUInt8 ∨ b ∈ q := by
  unfold rest pathPart
  cases r.port <;> cases r.path <;> simp [or_assoc]

end RequestLine

structure Request extends RequestLine where
  host_ne : host ≠ []
  host_mem : ∀ b ∈ host, b ≠ 0 ∧ b ∉ spaces ∧ b ∉ text ":/"
  port_mem : ∀ p ∈ port, p ≠ [] ∧ (∀ b ∈ p, isDigit b) ∧ decimal p < 2 ^ 16
  path_mem : ∀ q ∈ path, ∀ b ∈ q, b ≠ 0 ∧ b ≠ ' '.toUInt8
  version_eq : version = text "HTTP/1.0" ∨ version = text "HTTP/1.1"
  more_head : ∀ b ∈ more.head?, b ∈ spaces
  length_url : (text "http://" ++ toRequestLine.rest).length < 298
  length_bytes : toRequestLine.bytes.length < 500

namespace Request

/-- The host is looked up and asked for the path, at the port. -/
def Rewritten (r : Request) (a : Option Answer) : Prop :=
  ∃ up more, a = some (.forward up) ∧ up.host = r.host ∧ up.port = r.portNumber ∧
    up.sent = text "GET /" ++ r.path.getD [] ++ text " " ++ r.version ++
      text "\r\nHost: " ++ r.host ++ text "\r\n" ++ more

/-- No port, and a path without the characters that the calls of `strtok` and `sscanf` stop at. -/
def Plain (r : Request) : Prop :=
  r.port = none ∧ ∀ q ∈ r.path, ∀ b ∈ q, b ∉ text ":^]" ∧ b ∉ spaces

theorem forall_mem_getD {P : UInt8 → Prop} {path : Option (List UInt8)} :
    (∀ b ∈ path.getD [], P b) ↔ ∀ q ∈ path, ∀ b ∈ q, P b := by
  cases path <;> simp

theorem slash_host (r : Request) : ∀ b ∈ r.host, b ∉ text "/" :=
  fun b hb hc => (r.host_mem b hb).2.2 (List.mem_cons_of_mem _ hc)

theorem noNul_rest (r : Request) : 0 ∉ r.rest := by
  intro h
  rcases r.mem_rest.1 h with h | ⟨p, hp, h | h⟩ | ⟨q, hq, h | h⟩
  · exact (r.host_mem 0 h).1 rfl
  · exact absurd h (by simp [Char.toUInt8])
  · exact absurd ((r.port_mem p hp).2.1 0 h) (by decide)
  · exact absurd h (by simp [Char.toUInt8])
  · exact (r.path_mem q hq 0 h).1 rfl

theorem version_mem (r : Request) :
    0 ∉ r.version ∧ (∀ b ∈ r.version, b ∉ spaces) ∧ 'H'.toUInt8 ∈ r.version ∧ r.version.length = 8 := by
  rcases r.version_eq with h | h
  · rw [h]
    exact ⟨noNul_words.2.2.2, List.all_iff_forall_prop.1 rfl, List.mem_cons_self, rfl⟩
  · rw [h]
    exact ⟨noNul_words.2.2.1, List.all_iff_forall_prop.1 rfl, List.mem_cons_self, rfl⟩

theorem takeWhile_bytes (r : Request) : r.bytes.takeWhile (· ≠ 0) = text "GET" ++ ' '.toUInt8 ::
    (text "http://" ++ r.rest ++ ' '.toUInt8 :: (r.version ++ r.more.takeWhile (· ≠ 0))) := by
  have hfront : 0 ∉ text "GET" ++ ' '.toUInt8 :: (text "http://" ++ r.rest ++ ' '.toUInt8 :: r.version) := by
    have hspace : 0 ≠ ' '.toUInt8 := by simp [Char.toUInt8]
    simp [noNul_words, r.version_mem.1, r.noNul_rest, hspace]
  have hbytes : r.bytes =
      (text "GET" ++ ' '.toUInt8 :: (text "http://" ++ r.rest ++ ' '.toUInt8 :: r.version)) ++ r.more := by
    simp [RequestLine.bytes]
  rw [hbytes, List.takeWhile_append_of_pos (decide_ne_of_not_mem hfront)]
  simp

/-- The words of the line; the second one ends at a space in the path. -/
theorem words (r : Request) : ∃ r₁ r₂ more, token spaces (r.bytes.takeWhile (· ≠ 0)) = some (text "GET", r₁) ∧
    token spaces r₁ = some (text "http://" ++ r.rest.takeWhile (· ∉ spaces), r₂) ∧
    r₂ = (r.rest.dropWhile (· ∉ spaces) ++ ' '.toUInt8 :: (r.version ++ more)).tail ∧
    ∀ b ∈ more.head?, b ∈ spaces := by
  refine ⟨text "http://" ++ r.rest ++ ' '.toUInt8 :: (r.version ++ r.more.takeWhile (· ≠ 0)), _,
    r.more.takeWhile (· ≠ 0), ?_, ?_, rfl, ?_⟩
  · rw [takeWhile_bytes]
    exact token_append (List.cons_ne_nil _ _) (List.all_iff_forall_prop.1 rfl) (by simp [spaces, Char.toUInt8])
  · have hsplit : text "http://" ++ r.rest ++ ' '.toUInt8 :: (r.version ++ r.more.takeWhile (· ≠ 0)) =
        text "http://" ++ r.rest.takeWhile (· ∉ spaces) ++ (r.rest.dropWhile (· ∉ spaces) ++
          ' '.toUInt8 :: (r.version ++ r.more.takeWhile (· ≠ 0))) := by
      rw [List.append_assoc (text "http://") (List.takeWhile _ _), ← List.append_assoc (List.takeWhile _ _),
        List.takeWhile_append_dropWhile, List.append_assoc]
    rw [hsplit]
    refine token_append (List.cons_ne_nil _ _) ?_ ?_
    · intro b hb
      rcases List.mem_append.1 hb with hb | hb
      · exact List.all_iff_forall_prop.1 (rfl : (text "http://").all (· ∉ spaces) = true) b hb
      · simpa using List.mem_takeWhile_imp hb
    · intro b hb
      rw [List.head?_append] at hb
      cases hd : (r.rest.dropWhile (· ∉ spaces)).head? with
      | none =>
        rw [hd] at hb
        cases hb
        simp [spaces, Char.toUInt8]
      | some c =>
        rw [hd] at hb
        cases hb
        exact dropWhile_head r.rest b hd
  · intro b hb
    rw [List.head?_takeWhile] at hb
    exact r.more_head b (Option.eq_some_of_filter_eq_some hb)

theorem not_space_rest (r : Request) (h : ∀ q ∈ r.path, ∀ b ∈ q, b ∉ spaces) : ∀ b ∈ r.rest, b ∉ spaces := by
  intro b hb
  rcases r.mem_rest.1 hb with hb | ⟨p, hp, rfl | hb⟩ | ⟨q, hq, rfl | hb⟩
  · exact (r.host_mem b hb).2.1
  · simp [spaces, Char.toUInt8]
  · exact not_mem_of_isDigit ((r.port_mem p hp).2.1 b hb) rfl
  · simp [spaces, Char.toUInt8]
  · exact h q hq b hb

theorem length_takeWhile_rest (r : Request) :
    (text "http://" ++ r.rest.takeWhile (· ∉ spaces)).length < 298 := by
  have hle := (List.takeWhile_prefix (p := (· ∉ spaces)) (l := r.rest)).length_le
  have hurl := r.length_url
  rw [List.length_append] at hurl ⊢
  omega

theorem exists_version (r : Request) (d more : List UInt8) :
    ∃ found, token spaces (d ++ ' '.toUInt8 :: (r.version ++ more)).tail = some found := by
  rw [← Option.ne_none_iff_exists', Ne, token_eq_none_iff]
  intro h
  have hver := r.version_mem.2.2.1
  refine absurd (h 'H'.toUInt8 ?_) (by simp [spaces, Char.toUInt8])
  cases d with
  | nil => exact List.mem_append_left _ hver
  | cons b d => exact List.mem_append_right d (List.mem_cons_of_mem _ (List.mem_append_left _ hver))

theorem length_path_host (r : Request) : (r.path.getD []).length + r.host.length < 291 := by
  have hurl := r.length_url
  have hlen : (text "http://").length = 7 := rfl
  unfold RequestLine.rest pathPart at hurl
  rw [List.length_append, List.length_append, List.length_append, hlen] at hurl
  cases hq : r.path with
  | none =>
    rw [Option.getD_none, List.length_nil]
    omega
  | some q =>
    rw [hq, Option.map_some, Option.getD_some, List.length_cons] at hurl
    rw [Option.getD_some]
    omega

/-- If the path goes out as it came in, nothing in it ended a word or a token. -/
theorem plain_of_rewritten {loc : Locals} (r : Request) (h : r.Rewritten (serve loc r.bytes)) : r.Plain := by
  obtain ⟨r₁, r₂, more, h₁, h₂, hr₂, -⟩ := r.words
  obtain ⟨⟨version, r₃⟩, h₃⟩ := r.exists_version (r.rest.dropWhile (· ∉ spaces)) more
  rw [← hr₂] at h₃
  obtain ⟨up, tail, hserve, hhost, -, hsent⟩ := h
  have hv : version.length < 10 := by
    by_contra hv
    rw [serve_eq_none r.length_bytes h₁ h₂ r.length_takeWhile_rest h₃ hv] at hserve
    cases hserve
  rw [serve_eq r.length_bytes h₁ h₂ r.length_takeWhile_rest h₃ hv] at hserve
  obtain ⟨port, hurl, hsent'⟩ := answer_eq_forward hserve
  have hfound : ∀ b ∈ (urlPath (r.rest.takeWhile (· ∉ spaces))).getD [], b ∉ text "^]" ∧ b ∉ spaces := by
    intro b hb
    obtain ⟨hmem, hmark⟩ := mem_of_urlPath hb
    exact ⟨hmark, by simpa using List.mem_takeWhile_imp hmem⟩
  have hgiven : ' '.toUInt8 ∉ r.path.getD [] := fun hb => (forall_mem_getD.2 r.path_mem _ hb).2 rfl
  have hfree : ' '.toUInt8 ∉ (urlPath (r.rest.takeWhile (· ∉ spaces))).getD [] :=
    fun hb => (hfound _ hb).2 (by simp [spaces, Char.toUInt8])
  have hpath : (urlPath (r.rest.takeWhile (· ∉ spaces))).getD [] = r.path.getD [] := by
    rw [upstreamRequest_eq, hsent] at hsent'
    simp only [List.append_assoc] at hsent'
    have hread := congrArg (fun s => (s.drop 5).takeWhile (· ≠ ' '.toUInt8)) hsent'
    rw [takeWhile_request hgiven, takeWhile_request hfree] at hread
    exact hread.symm
  have hclean : ∀ q ∈ r.path, ∀ b ∈ q, b ∉ text "^]" ∧ b ∉ spaces := forall_mem_getD.1 (hpath ▸ hfound)
  have hall : r.rest.takeWhile (· ∉ spaces) = r.rest :=
    List.takeWhile_eq_self_iff.2 (by simpa using r.not_space_rest fun q hq b hb => (hclean q hq b hb).2)
  -- A colon anywhere would have put a slash in front of the name.
  have hcolon : ':'.toUInt8 ∉ r.rest := by
    intro hmem
    rw [hall] at hurl
    have hslash := slash_mem_host hmem hurl
    rw [hhost] at hslash
    exact absurd (r.host_mem _ hslash).2.2 (by simp [text])
  have hmarks : text ":^]" = ':'.toUInt8 :: text "^]" := rfl
  refine ⟨Option.eq_none_iff_forall_not_mem.2 fun p hp => ?_,
    fun q hq b hb => ⟨fun hmark => ?_, (hclean q hq b hb).2⟩⟩
  · exact hcolon (r.mem_rest.2 (.inr (.inl ⟨p, hp, .inl rfl⟩)))
  · rw [hmarks] at hmark
    rcases List.mem_cons.1 hmark with rfl | hmark
    · exact hcolon (r.mem_rest.2 (.inr (.inr ⟨q, hq, .inr hb⟩)))
    · exact (hclean q hq b hb).1 hmark

theorem serve_bytes (loc : Locals) (r : Request) (h : ∀ q ∈ r.path, ∀ b ∈ q, b ∉ spaces) :
    serve loc r.bytes = answer r.rest r.version := by
  obtain ⟨r₁, r₂, more, h₁, h₂, hr₂, hmore⟩ := r.words
  have hpos : ∀ b ∈ r.rest, decide (b ∉ spaces) = true := by simpa using r.not_space_rest h
  obtain ⟨-, hver, -, hlen⟩ := r.version_mem
  have hver0 : r.version ≠ [] := List.ne_nil_of_length_pos (by omega)
  rw [List.takeWhile_eq_self_iff.2 hpos] at h₂
  rw [List.dropWhile_eq_nil_iff.2 hpos, List.nil_append, List.tail_cons] at hr₂
  have h₃ : token spaces r₂ = some (r.version, more.tail) := hr₂ ▸ token_append hver0 hver hmore
  exact serve_eq r.length_bytes h₁ h₂ r.length_url h₃ (by omega)

/-- Without a port and such characters the request is rewritten. -/
theorem rewritten_of_plain (loc : Locals) (r : Request) (h : r.Plain) : r.Rewritten (serve loc r.bytes) := by
  obtain ⟨hport, hpath⟩ := h
  have hrest : r.rest = r.host ++ pathPart r.path := by
    unfold RequestLine.rest
    rw [hport, Option.map_none, Option.getD_none, List.nil_append]
  have hcolon : ':'.toUInt8 ∉ r.rest := by
    rw [r.mem_rest, hport]
    rintro (hb | ⟨p, hp, -⟩ | ⟨q, hq, hb | hb⟩)
    · exact (r.host_mem _ hb).2.2 (by simp [text])
    · cases hp
    · exact absurd hb (by simp [Char.toUInt8])
    · exact (hpath q hq _ hb).1 (by simp [text])
  have hmark : ∀ b ∈ r.path.getD [], b ∉ text "^]" :=
    forall_mem_getD.2 fun q hq b hb hc => (hpath q hq b hb).1 (List.mem_cons_of_mem _ hc)
  have hurl := urlHost_append r.host_ne r.slash_host (pathPart_head r.path) (hrest ▸ hcolon)
  have hfound := urlPath_append r.host_ne r.slash_host r.path hmark
  have hlen := r.length_path_host
  rw [serve_bytes loc r fun q hq b hb => (hpath q hq b hb).2, hrest,
    answer_forward r.version_eq hurl (by rw [hfound]; omega)]
  have hclose : text "\r\nConnection: close\r\n\r\n" = text "\r\n" ++ text "Connection: close\r\n\r\n" := rfl
  refine ⟨_, text "Connection: close\r\n\r\n", rfl, rfl, ?_, ?_⟩
  · simp [RequestLine.portNumber, hport]
  · dsimp only
    rw [upstreamRequest_eq, hfound, hclose, ← List.append_assoc]

/-- With a port everything is as it should be but the name of the host, which starts with a slash. -/
theorem serve_port (loc : Locals) (r : Request) {p : List UInt8} (hp : r.port = some p)
    (hpath : ∀ q ∈ r.path, ∀ b ∈ q, b ∉ text "^]" ∧ b ∉ spaces) :
    ∃ up, serve loc r.bytes = some (.forward up) ∧ up.host = '/'.toUInt8 :: r.host ∧ up.port = r.portNumber ∧
      up.sent = text "GET /" ++ r.path.getD [] ++ text " " ++ r.version ++ text "\r\nHost: " ++ up.host ++
        text "\r\nConnection: close\r\n\r\n" := by
  obtain ⟨hp0, hdigit, hlt⟩ := r.port_mem p hp
  have hrest : r.rest = r.host ++ ':'.toUInt8 :: p ++ pathPart r.path := by
    simp [RequestLine.rest, hp]
  have hname : ∀ b ∈ r.host ++ ':'.toUInt8 :: p, b ∉ text "/" := by
    refine List.forall_mem_append.2 ⟨r.slash_host, List.forall_mem_cons.2 ⟨?_, fun b hb => ?_⟩⟩
    · simp [text, Char.toUInt8]
    · exact not_mem_of_isDigit (hdigit b hb) rfl
  have hcolon : ∀ b ∈ '/'.toUInt8 :: r.host, b ∉ text ":" := by
    refine List.forall_mem_cons.2 ⟨by simp [text, Char.toUInt8], fun b hb hc => (r.host_mem b hb).2.2 ?_⟩
    rw [List.mem_singleton.1 hc]
    decide
  have htok : token (text ":") ('/'.toUInt8 :: r.rest) = some ('/'.toUInt8 :: r.host, p ++ pathPart r.path) := by
    rw [hrest, List.append_assoc, List.cons_append, ← List.cons_append]
    exact token_append (List.cons_ne_nil _ _) hcolon (by simp [text])
  have hport : token (text "/") (p ++ pathPart r.path) = some (p, (pathPart r.path).tail) :=
    token_append hp0 (fun b hb => not_mem_of_isDigit (hdigit b hb) rfl) (pathPart_head r.path)
  have hurl : urlHost r.rest = some ('/'.toUInt8 :: r.host, (decimal p : ℤ)) := by
    unfold urlHost
    rw [if_pos (r.mem_rest.2 (.inr (.inl ⟨p, hp, .inl rfl⟩)))]
    simp only [htok, hport, atoi_eq hdigit (by omega), Option.bind_eq_bind, Option.bind_some]
    rfl
  have hfound : (urlPath r.rest).getD [] = r.path.getD [] := by
    rw [hrest]
    exact urlPath_append (by simp) hname r.path (forall_mem_getD.2 fun q hq b hb => (hpath q hq b hb).1)
  have hlen := r.length_path_host
  rw [serve_bytes loc r fun q hq b hb => (hpath q hq b hb).2,
    answer_forward r.version_eq hurl (by rw [hfound, List.length_cons]; omega)]
  refine ⟨_, rfl, rfl, ?_, ?_⟩
  · simp only [RequestLine.portNumber, hp, Option.map_some, Option.getD_some]
    omega
  · dsimp only
    rw [upstreamRequest_eq, hfound]

/-- The request is rewritten as it should be exactly if it names no port and its path has none of the characters
at which the parsing stops. -/
theorem rewritten_iff (loc : Locals) (r : Request) : r.Rewritten (serve loc r.bytes) ↔ r.Plain :=
  ⟨r.plain_of_rewritten, rewritten_of_plain loc r⟩

/-- With a port the slash in front of the host is looked up with it. -/
def portRequest : Request where
  host := text "a"
  port := some (text "80")
  path := none
  version := text "HTTP/1.0"
  more := text "\r\n\r\n"
  host_ne := by simp [text]
  host_mem := List.all_iff_forall_prop.1 rfl
  port_mem := by
    rintro p ⟨⟩
    exact ⟨List.cons_ne_nil _ _, List.all_eq_true.1 rfl, by decide⟩
  path_mem := by
    rintro q ⟨⟩
  version_eq := .inl rfl
  more_head := by
    rintro b ⟨⟩
    decide
  length_url := by decide
  length_bytes := by decide

def zeros : Locals where
  buffer := List.replicate 510 0
  t1 := List.replicate 300 0
  t2 := List.replicate 300 0
  t3 := List.replicate 10 0
  length_buffer := List.length_replicate
  length_t1 := List.length_replicate
  length_t2 := List.length_replicate
  length_t3 := List.length_replicate

theorem port_not_rewritten : ¬ portRequest.Rewritten (serve zeros portRequest.bytes) := by
  obtain ⟨up, hserve, hhost, -⟩ := serve_port zeros portRequest rfl (by rintro q ⟨⟩)
  rintro ⟨up', more, hserve', hhost', -⟩
  rw [hserve] at hserve'
  cases hserve'
  exact List.cons_ne_self _ _ (hhost.symm.trans hhost')

end Request

end NormalProxy

end Rabin
