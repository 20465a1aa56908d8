import Rabin.Exchanges
import Rabin.NormalProxy

/-!
# A page through all three programs

`normalproxy` as the proxy behind `psb`: the child that it forks for a connection, from `recv` to the end of the
response. A browser that asks `hrd` for a page gets what the web server answers (`page_delivered`).
-/

namespace Rabin
open Reads

namespace NormalProxy

/-- `do { ... } while (n > 0)`: what is sent to the client, with enough fuel for the connection. -/
def relayLoop : ℕ → Conn UInt8 → List (List UInt8)
  | 0, _ => []
  | fuel + 1, c =>
    match Reads.read 500 c with
    | (none, _) => []
    | (some q, c) => q :: relayLoop fuel c

def badRequest : List UInt8 := (text "400 : BAD REQUEST\nONLY HTTP REQUESTS ALLOWED").take 18

/-- What the child sends. `web` is what a server answers, `none` if the child ends before it has sent the request
there; `down` cuts the answer. -/
def child (loc : Locals) (web : Upstream → Option (List UInt8)) (down : ∀ bs, Delivery bs) (c : Conn UInt8) :
    Option (List (List UInt8)) := do
  match ← serve loc ((Reads.read 500 c).1.getD []) with
  | .badRequest => return [badRequest]
  | .forward up =>
    let bs ← web up
    return relayLoop ((tokens (down bs).conn).length + 1) (down bs).conn

theorem flatten_relayLoop {fuel : ℕ} {c : Conn UInt8} {bs : List UInt8} (ht : tokens c = bs.map some)
    (hf : bs.length < fuel) : (relayLoop fuel c).flatten = bs := by
  induction fuel generalizing c bs with
  | zero => omega
  | succ fuel ih =>
    rw [relayLoop]
    rcases read_cases (show 0 < 500 by decide) c with ⟨h, hr⟩ | ⟨c', h, -⟩ | ⟨q, c', hpos, -, hr, h⟩
    · rw [ht] at h
      rw [hr, List.map_eq_nil_iff.1 h]
      rfl
    · rw [ht] at h
      cases bs <;> cases h
    · obtain ⟨q', rest, rfl, hq, hrest⟩ := List.map_eq_append_iff.1 (ht.symm.trans h)
      obtain rfl := List.map_injective_iff.2 (Option.some_injective UInt8) hq
      rw [List.length_append] at hf
      rw [hr, List.flatten_cons, ih hrest.symm (by omega)]

end NormalProxy

/-- A browser asks for a page, and each hop gets the request in one piece. -/
structure Visit where
  request : NormalProxy.Request
  /-- what is in the arrays of the child of `normalproxy` -/
  loc : NormalProxy.Locals
  down : ∀ bs, Delivery bs
  /-- what `recv` returns in `psb` -/
  cut : List UInt8 → List (List UInt8)
  cut_piece : ∀ bs, ∀ q ∈ cut bs, Params.Piece q
  flatten_cut : ∀ bs, (cut bs).flatten = bs
  wire : ∀ bs, Delivery bs
  /-- how often `fopen` succeeds in `hrd` -/
  files : ℕ

namespace Visit

def exchange (v : Visit) (web : NormalProxy.Upstream → Option (List UInt8)) : Exchange where
  request := v.request.bytes
  arrives := .whole _
  connected := true
  upConnected := true
  upstream := fun w => v.cut ((NormalProxy.child v.loc web v.down (Delivery.whole w).conn).getD []).flatten
  piece := fun _ => v.cut_piece _
  net := .whole
  wire := v.wire
  files := v.files

theorem first_whole {bs : List UInt8} {size : ℕ} (h : bs.length ≤ size) : (Delivery.whole bs).first size = bs := by
  refine (Delivery.first_eq_iff _).2 ⟨h, ?_⟩
  unfold Delivery.whole
  split <;> simp

variable (v : Visit) (web : NormalProxy.Upstream → Option (List UInt8))

theorem asked_exchange (h : ∀ b ∈ v.request.bytes, b ≠ 0) :
    (v.exchange web).Terminated ∧ (v.exchange web).asked = v.request.bytes ∧
      (v.exchange web).askedUpstream = v.request.bytes := by
  have hlen := v.request.length_bytes
  have hfirst : (Delivery.whole v.request.bytes).first 1000 = v.request.bytes := first_whole (by omega)
  have hasked : (v.exchange web).asked = v.request.bytes := by
    have hall : v.request.bytes.takeWhile (· ≠ 0) = v.request.bytes :=
      List.takeWhile_eq_self_iff.2 fun b hb => by simpa using h b hb
    exact (congrArg (List.takeWhile _) hfirst).trans hall
  refine ⟨.inr ?_, hasked, ?_⟩
  · show ((Delivery.whole v.request.bytes).first 1000).length < 1000
    rw [hfirst]
    omega
  · rw [Exchange.askedUpstream, hasked]
    exact hfirst

/-- What comes back from `normalproxy`. -/
theorem exists_upstream (hplain : v.request.Plain) :
    ∃ up, v.request.Rewritten (some (.forward up)) ∧
      ((v.exchange web).upstream v.request.bytes).flatten = (web up).getD [] := by
  have hlen := v.request.length_bytes
  have hread : (Reads.read 500 (Delivery.whole v.request.bytes).conn).1.getD [] = v.request.bytes :=
    (read_conn _).trans (first_whole (by omega))
  have hrew := NormalProxy.Request.rewritten_of_plain v.loc v.request hplain
  obtain ⟨up, more, hup, hrest⟩ := hrew
  refine ⟨up, ⟨up, more, rfl, hrest⟩, ?_⟩
  show (v.cut _).flatten = _
  rw [v.flatten_cut, NormalProxy.child, hread, hup]
  cases hweb : web up with
  | none => simp [hweb]
  | some bs =>
    have ht : tokens (v.down bs).conn = bs.map some := by simpa using (v.down bs).tokens_conn []
    have hloop := NormalProxy.flatten_relayLoop ht (Nat.lt_succ_self bs.length)
    have hfuel : (tokens (v.down bs).conn).length = bs.length := by rw [ht, List.length_map]
    simp [hweb, hfuel, hloop]

/-- Whatever other browsers ask for, and whatever comes of it: while every `fopen` succeeds, the answer to a plain
request for a page comes out whole and with nothing else, and it is the answer of the host that the request names to the
request that it is owed. -/
theorem page_delivered (p : Params) (es : List Exchange) (he : ∀ e ∈ es, e.Terminated)
    (hf : ∀ (k : ℕ) (e : Exchange), es[k]? = some e → e.rounds ((es.take k).any Exchange.hangs) ≤ e.files) {k : ℕ}
    (hk : es[k]? = some (v.exchange web)) (hplain : v.request.Plain) (hnul : ∀ b ∈ v.request.bytes, b ≠ 0)
    (hhangs : ∀ e ∈ es.take k, e.hangs = false) :
    ∃ bs s up, Params.exchanges p .init es = some (bs, s) ∧ v.request.Rewritten (some (.forward up)) ∧
      bs[k]? = some ((web up).getD []) := by
  obtain ⟨bs, s, h1, -, hget⟩ := SyncPair.idle_init.exchanges (p := p) he hf
  obtain ⟨up, hup, hflat⟩ := v.exists_upstream web hplain
  obtain ⟨-, hasked, hasked'⟩ := asked_exchange v web hnul
  refine ⟨bs, s, up, h1, hup, ?_⟩
  have hany : (es.take k).any Exchange.hangs = false := List.any_eq_false.2 fun e h => by simp [hhangs e h]
  have hne : v.request.bytes ≠ [] := by simp [NormalProxy.RequestLine.bytes, NormalProxy.text]
  rw [hget k _ hk, hany, Exchange.reply, hasked, hasked', if_neg hne, hflat]
  rfl

/-- `GET http://b/x HTTP/1.1` -/
def plainRequest : NormalProxy.Request where
  host := NormalProxy.text "b"
  port := none
  path := some (NormalProxy.text "x")
  version := NormalProxy.text "HTTP/1.1"
  more := NormalProxy.text "\r\n"
  host_ne := by simp [NormalProxy.text]
  host_mem := List.all_iff_forall_prop.1 rfl
  port_mem := by
    rintro q ⟨⟩
  path_mem := by
    rintro q ⟨⟩
    exact List.all_iff_forall_prop.1 rfl
  version_eq := .inr rfl
  more_head := by
    rintro b ⟨⟩
    decide
  length_url := by decide
  length_bytes := by decide

def plainVisit : Visit where
  request := plainRequest
  loc := NormalProxy.Request.zeros
  down := .whole
  cut := fun bs => bs.map ([·])
  cut_piece := by
    intro bs q hq
    obtain ⟨b, -, rfl⟩ := List.mem_map.1 hq
    exact ⟨Nat.le_refl 1, Nat.le_add_left 1 999⟩
  flatten_cut := by
    intro bs
    induction bs with
    | nil => rfl
    | cons b bs ih => rw [List.map_cons, List.flatten_cons, ih, List.singleton_append]
  wire := .whole
  files := 3

/-- `hrd` could not connect for the browser before. -/
theorem page_delivered_small :
    let web (_ : NormalProxy.Upstream) : Option (List UInt8) := some [104, 105]
    ∃ bs s, Params.exchanges .small .init [{ plainVisit.exchange web with connected := false },
      plainVisit.exchange web] = some (bs, s) ∧ bs[1]? = some [104, 105] := by
  intro web
  have hnul : ∀ b ∈ plainRequest.bytes, b ≠ 0 := List.all_iff_forall_prop.1 rfl
  have hpath : ∀ q ∈ plainRequest.path, ∀ b ∈ q, b ∉ NormalProxy.text ":^]" ∧ b ∉ CStrings.spaces := by
    rintro q ⟨⟩
    exact List.all_iff_forall_prop.1 rfl
  obtain ⟨hterm, -, hasked⟩ := plainVisit.asked_exchange web hnul
  have hrounds (stuck : Bool) : (plainVisit.exchange web).rounds stuck ≤ 3 := by
    obtain ⟨up, -, hflat⟩ := plainVisit.exists_upstream web ⟨rfl, hpath⟩
    have hlen (w : List UInt8) : ((plainVisit.exchange web).upstream w).flatten.length =
        ((plainVisit.exchange web).upstream w).length := by
      simp [exchange, plainVisit, List.length_flatten, Function.comp_def]
    rw [Exchange.rounds, hasked, ← hlen, hflat]
    split
    · exact Nat.zero_le 3
    · split <;> decide
  obtain ⟨bs, s, up, h1, -, h2⟩ := page_delivered plainVisit web .small
    [{ plainVisit.exchange web with connected := false }, plainVisit.exchange web]
    (List.forall_mem_cons.2 ⟨hterm, List.forall_mem_singleton.2 hterm⟩) (by
      rintro (_ | _ | k) _ hk
      · cases hk
        exact Nat.zero_le 3
      · cases hk
        exact hrounds _
      · cases hk) (k := 1) rfl ⟨rfl, hpath⟩ hnul (List.forall_mem_singleton.2 rfl)
  exact ⟨bs, s, h1, h2⟩

end Visit
end Rabin
