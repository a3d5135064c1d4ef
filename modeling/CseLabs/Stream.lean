import CseLabs.Run
import CseLabs.Wire
import Mathlib.Tactic

namespace CseLabs.Stream

open Wire (Bytes SIZE_SZ RPC_HEADER_SZ MAX_PDU netBytes overwrite)

-- ntohl of the four bytes that were read into an int
def ntohl : Bytes → Int
  | [a, b, c, d] =>
      (a.toUInt32 <<< 24 ||| b.toUInt32 <<< 16 ||| c.toUInt32 <<< 8 ||| d.toUInt32).toInt32.toInt
  | _ => 0

-- An int that becomes a size_t.
def toSize (i : Int) : Nat := (i % 2 ^ 64).toNat

-- The argument of malloc: sizeof makes the sum a size_t.
def allocated (sz : Int) : Nat := (toSize sz + SIZE_SZ) % 2 ^ 64

-- charbuf. A buffer that is being received is what is in it so far.
structure Charbuf where
  buf : Option Bytes := none
  sz : Int := 0
  solong : Int := 0
  deriving DecidableEq

-- What read or write returns: a number of bytes, 0 or -1. With the last two goes whether errno is
-- EAGAIN; after a 0 it is what an earlier call left there.
inductive Io
  | bytes (n : Nat)
  | zero (again : Bool)
  | failed (again : Bool)
  deriving DecidableEq

def Io.isBytes : Io → Bool
  | .bytes _ => true
  | .zero _ | .failed _ => false

structure Connection where
  dead : Bool := false
  wpdu : Charbuf := {}
  rpdu : Charbuf := {}
  -- the bytes that have arrived at fd_ and have not been read
  arrived : Bytes := []
  -- the PDUs that got_pdu has accepted
  pdus : List Bytes := []
  -- for every read into rpdu_.buf the count it asked for and the room behind the cursor
  reads : List (Nat × Int) := []

section Reading

def read (c : Connection) (count n : Nat) : Option (Bytes × Connection) :=
  if 0 < n ∧ n ≤ count ∧ n ≤ c.arrived.length then
    some (c.arrived.take n, { c with arrived := c.arrived.drop n })
  else none

-- The last lines of readpdu
def readBody (c : Connection) (body : Io) : Option (Bool × Connection) :=
  let count := toSize (c.rpdu.sz - c.rpdu.solong)
  let c := { c with reads := (count, allocated c.rpdu.sz - c.rpdu.solong) :: c.reads }
  match body with
  | .bytes n => do
      let (data, c) ← read c count n
      some (true, { c with rpdu := { c.rpdu with
                                      buf := c.rpdu.buf.map (· ++ data)
                                      solong := c.rpdu.solong + n } })
  | .zero again | .failed again => some (if again then (true, c) else (false, { c with rpdu := {} }))

-- `length` is what the read of the length returns, where readpdu makes it. `none` is a VERIFY that
-- fails; malloc cannot give more than half of the address space.
def readpdu (c : Connection) (length body : Io) : Option (Bool × Connection) :=
  if c.rpdu.sz = 0 then
    match length with
    | .zero _ => some (false, c)
    | .failed again => if again then none else some (false, c)
    | .bytes n => do
        let (sz1, c) ← read c SIZE_SZ n
        if n ≠ SIZE_SZ then some (false, c)
        else
          let sz := ntohl sz1
          if (MAX_PDU : Int) < sz then some (false, c)
          else if c.rpdu.buf ≠ none ∨ 2 ^ 63 ≤ allocated sz then none
          else readBody { c with rpdu := { buf := some sz1, sz := sz, solong := SIZE_SZ } } body
  else readBody c body

-- The end of read_cb; `accepted` is what got_pdu says.
def offer (c : Connection) (accepted : Bool) : Connection :=
  if c.rpdu.buf ≠ none ∧ c.rpdu.sz = c.rpdu.solong ∧ accepted then
    { c with pdus := c.pdus ++ c.rpdu.buf.toList, rpdu := {} }
  else c

@[simp] theorem offer_dead (c : Connection) (accepted : Bool) : (offer c accepted).dead = c.dead := by
  unfold offer
  split <;> rfl

@[simp] theorem offer_reads (c : Connection) (accepted : Bool) : (offer c accepted).reads = c.reads := by
  unfold offer
  split <;> rfl

def readCb (c : Connection) (length body : Io) (accepted : Bool) : Option Connection :=
  if c.dead then some c
  else
    (if c.rpdu.buf = none ∨ c.rpdu.solong < c.rpdu.sz then readpdu c length body else some (true, c)).map
      fun (succ, c) => offer { c with dead := !succ } accepted

-- read_cb will read a length.
def ReadsLength (c : Connection) : Prop :=
  c.dead = false ∧ c.rpdu.sz = 0 ∧ (c.rpdu.buf = none ∨ c.rpdu.solong < c.rpdu.sz)

instance (c : Connection) : Decidable (ReadsLength c) :=
  inferInstanceAs (Decidable (_ ∧ _ ∧ (_ ∨ _)))

end Reading

section Turns

variable {c after next : Connection} {length body : Io} {succ accepted : Bool}

-- Without a buffer there is nothing else in rpdu_.
def Settled (c : Connection) : Prop := (c.rpdu.buf = none → c.rpdu = {}) ∧ 0 ≤ c.rpdu.solong

theorem readsLength_of_idle (halive : c.dead = false) (hidle : c.rpdu = {}) : ReadsLength c := by
  unfold ReadsLength
  rw [hidle]
  exact ⟨halive, rfl, .inl rfl⟩

theorem Settled.not_readsLength (h : Settled c) (hbuf : c.rpdu.buf ≠ none) : ¬ ReadsLength c := by
  rintro ⟨-, hsz, hnone | hmore⟩
  · exact hbuf hnone
  · have hsolong := h.2
    omega

theorem readBody_cases (h : readBody c body = some (succ, after)) :
    (∃ n, body = .bytes n ∧ 0 < n ∧ n ≤ toSize (c.rpdu.sz - c.rpdu.solong) ∧ n ≤ c.arrived.length ∧
      succ = true ∧
      after = { c with
                  reads := (toSize (c.rpdu.sz - c.rpdu.solong), allocated c.rpdu.sz - c.rpdu.solong) :: c.reads
                  arrived := c.arrived.drop n
                  rpdu := { c.rpdu with buf := c.rpdu.buf.map (· ++ c.arrived.take n)
                                        solong := c.rpdu.solong + n } }) ∨
    ∃ again, (body = .zero again ∨ body = .failed again) ∧ succ = again ∧
      after = { c with
                  reads := (toSize (c.rpdu.sz - c.rpdu.solong), allocated c.rpdu.sz - c.rpdu.solong) :: c.reads
                  rpdu := if again then c.rpdu else {} } := by
  cases body with
  | bytes n =>
      simp only [readBody, read, Option.bind_eq_bind] at h
      split at h
      · next hread =>
          cases h
          exact .inl ⟨n, rfl, hread.1, hread.2.1, hread.2.2, rfl, rfl⟩
      · cases h
  | zero again =>
      refine .inr ⟨again, .inl rfl, ?_⟩
      cases again <;> cases h <;> exact ⟨rfl, rfl⟩
  | failed again =>
      refine .inr ⟨again, .inr rfl, ?_⟩
      cases again <;> cases h <;> exact ⟨rfl, rfl⟩

-- readpdu after it has read a length
def begun (c : Connection) : Connection :=
  { c with arrived := c.arrived.drop SIZE_SZ
           rpdu := { buf := some (c.arrived.take SIZE_SZ), sz := ntohl (c.arrived.take SIZE_SZ)
                     solong := SIZE_SZ } }

-- What read_cb can do before it offers the PDU to the manager.
inductive Turn (c : Connection) (length body : Io) : Bool → Connection → Prop
  | complete (hbuf : c.rpdu.buf ≠ none) (hfull : c.rpdu.sz ≤ c.rpdu.solong) : Turn c length body true c
  | noLength (hidle : c.rpdu = {}) (rest : Bytes)
      (hlength : length = .bytes SIZE_SZ →
        SIZE_SZ ≤ c.arrived.length ∧ MAX_PDU < ntohl (c.arrived.take SIZE_SZ)) :
      Turn c length body false { c with arrived := rest }
  | length {succ : Bool} {after : Connection} (hidle : c.rpdu = {}) (hlength : length = .bytes SIZE_SZ)
      (harrived : SIZE_SZ ≤ c.arrived.length) (hmax : ntohl (c.arrived.take SIZE_SZ) ≤ MAX_PDU)
      (halloc : allocated (ntohl (c.arrived.take SIZE_SZ)) < 2 ^ 63)
      (hbody : readBody (begun c) body = some (succ, after)) : Turn c length body succ after
  | body {succ : Bool} {after : Connection} (hbuf : c.rpdu.buf ≠ none) (hmore : c.rpdu.solong < c.rpdu.sz)
      (hbody : readBody c body = some (succ, after)) : Turn c length body succ after

theorem readpdu_idle (hidle : c.rpdu = {}) (h : readpdu c length body = some (succ, after)) :
    Turn c length body succ after := by
  unfold readpdu at h
  rw [if_pos (by rw [hidle])] at h
  cases length with
  | zero _ =>
      cases h
      exact .noLength hidle c.arrived nofun
  | failed again =>
      cases again <;> cases h
      exact .noLength hidle c.arrived nofun
  | bytes n =>
      simp only [read, Option.bind_eq_bind] at h
      split at h
      · next hread =>
          simp only [Option.bind_some] at h
          split at h
          · next hshort =>
              cases h
              exact .noLength hidle _ fun hn => absurd (Io.bytes.inj hn) hshort
          · next hwhole =>
              obtain rfl : n = SIZE_SZ := not_not.mp hwhole
              split at h
              · next hbig =>
                  cases h
                  exact .noLength hidle _ fun _ => ⟨hread.2.2, hbig⟩
              · next hmax =>
                  split at h
                  · cases h
                  · next halloc =>
                      exact .length hidle rfl hread.2.2 (not_lt.mp hmax)
                        (not_le.mp fun hle => halloc (.inr hle)) h
      · cases h

theorem readCb_cases (hsettled : Settled c) (h : readCb c length body accepted = some next) :
    c.dead = true ∧ next = c ∨
    c.dead = false ∧ ∃ succ after, Turn c length body succ after ∧
      next = offer { after with dead := !succ } accepted := by
  unfold readCb at h
  split at h
  · next hdead =>
      cases h
      exact .inl ⟨hdead, rfl⟩
  · next hdead =>
      refine .inr ⟨Bool.eq_false_iff.mpr hdead, ?_⟩
      obtain ⟨⟨succ, after⟩, hturn, hnext⟩ := Option.map_eq_some_iff.mp h
      refine ⟨succ, after, ?_, hnext.symm⟩
      split at hturn
      · next hread =>
          by_cases hbuf : c.rpdu.buf = none
          · exact readpdu_idle (hsettled.1 hbuf) hturn
          · have hmore := hread.resolve_left hbuf
            have hsolong := hsettled.2
            unfold readpdu at hturn
            rw [if_neg (by omega)] at hturn
            exact .body hbuf hmore hturn
      · next hread =>
          obtain ⟨hbuf, hfull⟩ := not_or.mp hread
          cases hturn
          exact .complete hbuf (not_lt.mp hfull)

theorem Settled.offer (h : Settled c) : Settled (offer c accepted) := by
  unfold Stream.offer
  split
  · exact ⟨fun _ => rfl, le_rfl⟩
  · exact h

theorem Settled.readBody (h : 0 ≤ c.rpdu.solong) (hbuf : c.rpdu.buf ≠ none)
    (hbody : readBody c body = some (succ, after)) : Settled after := by
  rcases readBody_cases hbody with ⟨n, -, -, -, -, -, rfl⟩ | ⟨again, -, -, rfl⟩
  · refine ⟨fun hnone => absurd (Option.map_eq_none_iff.mp hnone) hbuf, ?_⟩
    show 0 ≤ c.rpdu.solong + n
    omega
  · cases again with
    | true => exact ⟨fun hnone => absurd hnone hbuf, h⟩
    | false => exact ⟨fun _ => rfl, le_rfl⟩

theorem Settled.readCb (h : Settled c) (hcb : readCb c length body accepted = some next) : Settled next := by
  rcases readCb_cases h hcb with ⟨-, rfl⟩ | ⟨-, succ, after, hturn, rfl⟩
  · exact h
  · have hafter : Settled after := by
      cases hturn with
      | complete _ _ => exact h
      | noLength _ rest _ => exact h
      | length _ _ _ _ _ hbody => exact Settled.readBody (Int.natCast_nonneg SIZE_SZ) (Option.some_ne_none _) hbody
      | body hbuf _ hbody => exact Settled.readBody h.2 hbuf hbody
    exact Settled.offer hafter

end Turns

section Writing

-- writepdu, and the bytes it has handed to the socket
def writepdu (c : Connection) (io : Io) : Option (Bool × Connection × Bytes) :=
  if c.wpdu.solong < 0 then none
  else if c.wpdu.solong = c.wpdu.sz then some (true, c, [])
  else
    let size := netBytes (UInt32.ofInt c.wpdu.sz)
    let buf := if c.wpdu.solong = 0 then c.wpdu.buf.map (overwrite · 0 size) else c.wpdu.buf
    let c := { c with wpdu := { c.wpdu with buf := buf } }
    let unwritten := (buf.getD []).drop c.wpdu.solong.toNat
    match io with
    | .bytes n =>
        if 0 < n ∧ n ≤ unwritten.length then
          some (true, { c with wpdu := { c.wpdu with solong := c.wpdu.solong + n } }, unwritten.take n)
        else none
    | .zero _ => some (true, c, [])
    | .failed again =>
        if again then some (true, c, [])
        else some (false, { c with wpdu := { c.wpdu with solong := -1, sz := 0 } }, [])

-- send up to its return or to its wait for send_complete_. While there is another PDU in wpdu_ it
-- waits for send_wait_.
def send (c : Connection) (b : Bytes) (io : Io) : Option (Connection × Bytes) :=
  if c.dead then some (c, [])
  else if c.wpdu.buf ≠ none then none
  else do
    let (succ, c, out) ← writepdu { c with wpdu := { buf := some b, sz := b.length, solong := 0 } } io
    if succ ∧ c.wpdu.solong ≠ c.wpdu.sz then some (c, out)
    else some ({ c with dead := !succ, wpdu := {} }, out)

-- The end of a send that had to wait for send_complete_
def sendComplete (c : Connection) : Option Connection :=
  if c.wpdu.buf ≠ none ∧ (c.dead ∨ c.wpdu.solong < 0 ∨ c.wpdu.sz ≤ c.wpdu.solong) then
    some { c with wpdu := {} }
  else none

def writeCb (c : Connection) (io : Io) : Option (Connection × Bytes) :=
  if c.dead then none
  else if c.wpdu.sz = 0 then some (c, [])
  else do
    let (succ, c, out) ← writepdu c io
    if succ ∧ c.wpdu.solong < 0 then none else some ({ c with dead := !succ }, out)

end Writing

-- What writepdu makes of a buffer: its size in the first four bytes.
def frame (b : Bytes) : Bytes := overwrite b 0 (netBytes (UInt32.ofNat b.length))

-- A connection with its peer: what one side writes arrives at the other.
structure Link where
  sender : Connection := {}
  receiver : Connection := {}
  -- the PDUs that send has taken
  sent : List Bytes := []

inductive Event
  | send (b : Bytes) (io : Io)
  | writeCb (io : Io)
  | sendComplete
  | readCb (length body : Io) (accepted : Bool)
  deriving DecidableEq

def Link.write (link : Link) (sender : Connection) (out : Bytes) : Link :=
  { link with sender := sender
              receiver := { link.receiver with arrived := link.receiver.arrived ++ out } }

@[simp] theorem Link.write_sender (link : Link) (sender : Connection) (out : Bytes) :
    (link.write sender out).sender = sender := rfl

def step (link : Link) : Event → Option Link
  | .send b io => do
      let (sender, out) ← send link.sender b io
      let sent := if link.sender.dead then link.sent else link.sent ++ [frame b]
      some { link.write sender out with sent := sent }
  | .writeCb io => do
      let (sender, out) ← writeCb link.sender io
      some (link.write sender out)
  | .sendComplete => do
      let sender ← sendComplete link.sender
      some { link with sender := sender }
  | .readCb length body accepted => do
      let receiver ← readCb link.receiver length body accepted
      some { link with receiver := receiver }

def Step (link : Link) (event : Event) (next : Link) : Prop := step link event = some next

end CseLabs.Stream
