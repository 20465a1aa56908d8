import Rabin.Block

/-!
# The sending side of a connection

`write` may accept any positive part of its buffer, or fail and accept nothing. What the calls to
come will do is the `plan` of the socket; after the plan every call accepts everything. The `log`
keeps the calls made, with the buffers they were given.
-/

namespace Rabin

/-- What a call of `write` will do, short of accepting everything. -/
inductive Outcome
  | accept (k : ℕ)
  | error
  deriving DecidableEq, Repr

/-- What the buffer of a `write` holds: the descriptor of a block, its data, or the final descriptor
of a file. -/
inductive Msg
  | desc (b : Block)
  | data (b : Block)
  | eof
  deriving DecidableEq

structure Write where
  msg : Msg
  buf : List UInt8
  /-- the bytes accepted, `none` if the call returned -1 -/
  ret : Option ℕ
  deriving DecidableEq

namespace Write

def accepted (w : Write) : List UInt8 := w.buf.take (w.ret.getD 0)

/-- The whole buffer was accepted. -/
def Complete (w : Write) : Prop := w.ret = some w.buf.length

instance (w : Write) : Decidable w.Complete := inferInstanceAs (Decidable (_ = _))

theorem accepted_prefix (w : Write) : w.accepted <+: w.buf := List.take_prefix ..

end Write

structure Socket where
  plan : List Outcome
  log : List Write

namespace Socket
variable (s : Socket)

/-- A new connection. -/
def open' (plan : List Outcome) : Socket := ⟨plan, []⟩

/-- The return value of `write(fd, buf, len)`. -/
def ret (len : ℕ) : Option ℕ :=
  match s.plan with
  | [] => some len
  | .accept k :: _ => some (min (max k 1) len)
  | .error :: _ => none

def write (msg : Msg) (buf : List UInt8) : Option ℕ × Socket :=
  (s.ret buf.length, ⟨s.plan.tail, s.log ++ [⟨msg, buf, s.ret buf.length⟩]⟩)

/-- The bytes the connection has taken. -/
def accepted : List UInt8 := s.log.flatMap Write.accepted

@[simp] theorem write_log (msg : Msg) (buf : List UInt8) :
    (s.write msg buf).2.log = s.log ++ [⟨msg, buf, s.ret buf.length⟩] := rfl

@[simp] theorem write_plan (msg : Msg) (buf : List UInt8) : (s.write msg buf).2.plan = s.plan.tail := rfl

@[simp] theorem write_fst (msg : Msg) (buf : List UInt8) : (s.write msg buf).1 = s.ret buf.length := rfl

theorem accepted_write (msg : Msg) (buf : List UInt8) :
    (s.write msg buf).2.accepted = s.accepted ++ (⟨msg, buf, s.ret buf.length⟩ : Write).accepted := by
  simp [accepted]

theorem ret_of_plan_nil {s : Socket} (h : s.plan = []) (len : ℕ) : s.ret len = some len := by
  rw [ret, h]

/-- Without a plan every byte is accepted. -/
theorem accepted_write_of_plan_nil {s : Socket} (h : s.plan = []) (msg : Msg) (buf : List UInt8) :
    (s.write msg buf).2.accepted = s.accepted ++ buf := by
  rw [accepted_write, ret_of_plan_nil h]; simp [Write.accepted]

end Socket

end Rabin
