import Mathlib.Data.List.Lex
import Mathlib.Data.Prod.Lex
import Mathlib.Algebra.Group.Nat.Defs
import CseLabs.Decode

namespace CseLabs.Wire

abbrev Bytes := List UInt8

def DEFAULT_RPC_SZ : Nat := 1024

-- sizeof(rpc_sz_t); the headers are five ints and two ints.
def SIZE_SZ : Nat := 4

def RPC_HEADER_SZ : Nat := max 20 8 + SIZE_SZ

def MAX_PDU : Nat := 10 * 2 ^ 20

section Headers

structure ReqHeader where
  xid : Int32
  proc : Int32
  cltNonce : UInt32
  srvNonce : UInt32
  xidRep : Int32
  deriving DecidableEq

structure ReplyHeader where
  xid : Int32
  ret : Int32
  deriving DecidableEq

inductive Kind
  | req
  | reply
  deriving DecidableEq

inductive Header
  | req (h : ReqHeader)
  | reply (h : ReplyHeader)
  deriving DecidableEq

def Header.kind : Header → Kind
  | .req _ => .req
  | .reply _ => .reply

end Headers

section Values

-- std::map, in the order of its iterators
structure StdMap (α β : Type) [LinearOrder α] where
  entries : List (α × β)
  ascending : entries.Pairwise (·.1 < ·.1)

variable {α β : Type} [LinearOrder α]

def insertEntry (a : α) (b : β) : List (α × β) → List (α × β)
  | [] => [(a, b)]
  | (k, v) :: rest =>
      if a < k then (a, b) :: (k, v) :: rest
      else if a = k then (k, b) :: rest
      else (k, v) :: insertEntry a b rest

theorem fst_mem_insertEntry {a : α} {b : β} {l : List (α × β)} {e : α × β} (h : e ∈ insertEntry a b l) :
    e.1 = a ∨ ∃ e' ∈ l, e'.1 = e.1 := by
  induction l with
  | nil =>
      rw [insertEntry, List.mem_singleton] at h
      exact .inl (by rw [h])
  | cons head rest ih =>
      obtain ⟨k, v⟩ := head
      rw [insertEntry] at h
      split at h
      · rcases List.mem_cons.mp h with rfl | hmem
        · exact .inl rfl
        · exact .inr ⟨e, hmem, rfl⟩
      · split at h
        · rcases List.mem_cons.mp h with rfl | hmem
          · exact .inr ⟨(k, v), List.mem_cons_self, rfl⟩
          · exact .inr ⟨e, List.mem_cons_of_mem _ hmem, rfl⟩
        · rcases List.mem_cons.mp h with rfl | hmem
          · exact .inr ⟨(k, v), List.mem_cons_self, rfl⟩
          · rcases ih hmem with hkey | ⟨e', hold, hkey⟩
            · exact .inl hkey
            · exact .inr ⟨e', List.mem_cons_of_mem _ hold, hkey⟩

theorem ascending_insertEntry {a : α} {b : β} {l : List (α × β)} (h : l.Pairwise (·.1 < ·.1)) :
    (insertEntry a b l).Pairwise (·.1 < ·.1) := by
  induction l with
  | nil => exact List.pairwise_singleton _ _
  | cons head rest ih =>
      obtain ⟨k, v⟩ := head
      obtain ⟨hhead, hrest⟩ := List.pairwise_cons.mp h
      rw [insertEntry]
      split
      · rename_i hlt
        refine List.pairwise_cons.mpr ⟨fun e he => ?_, h⟩
        rcases List.mem_cons.mp he with rfl | hmem
        · exact hlt
        · exact hlt.trans (hhead e hmem)
      · rename_i hge
        split
        · exact List.pairwise_cons.mpr ⟨hhead, hrest⟩
        · rename_i hne
          refine List.pairwise_cons.mpr ⟨fun e he => ?_, ih hrest⟩
          rcases fst_mem_insertEntry he with hkey | ⟨e', hold, hkey⟩
          · rw [hkey]
            exact lt_of_le_of_ne (not_lt.mp hge) (Ne.symm hne)
          · rw [← hkey]
            exact hhead e' hold

namespace StdMap

def empty : StdMap α β := ⟨[], .nil⟩

-- d[a] = b
def insert (d : StdMap α β) (a : α) (b : β) : StdMap α β :=
  ⟨insertEntry a b d.entries, ascending_insertEntry d.ascending⟩

theorem entries_inj {d d' : StdMap α β} (h : d.entries = d'.entries) : d = d' := by
  cases d
  cases d'
  congr

-- operator< of std::map compares the pairs one after another
instance [LinearOrder β] : LinearOrder (StdMap α β) :=
  LinearOrder.lift' (fun d => d.entries.map toLex)
    fun _ _ h => entries_inj (List.map_injective_iff.mpr toLex.injective h)

end StdMap

-- The types operator<< and operator>> are overloaded for.
inductive Ty
  | bool
  | char
  | uchar
  | short
  | ushort
  | int
  | uint
  | ull
  | string
  | vector (t : Ty)
  | map (k t : Ty)

-- The values of a type and operator< on them, which std::map needs of its keys. A char is
-- signed; a string is ordered by its bytes.
def Ty.model : Ty → (α : Type) × LinearOrder α
  | .bool => ⟨Bool, inferInstance⟩
  | .char => ⟨Int8, LinearOrder.lift' Int8.toInt fun _ _ => Int8.toInt_inj.mp⟩
  | .uchar => ⟨UInt8, LinearOrder.lift' UInt8.toNat fun _ _ => UInt8.toNat_inj.mp⟩
  | .short => ⟨Int16, LinearOrder.lift' Int16.toInt fun _ _ => Int16.toInt_inj.mp⟩
  | .ushort => ⟨UInt16, LinearOrder.lift' UInt16.toNat fun _ _ => UInt16.toNat_inj.mp⟩
  | .int => ⟨Int32, LinearOrder.lift' Int32.toInt fun _ _ => Int32.toInt_inj.mp⟩
  | .uint => ⟨UInt32, LinearOrder.lift' UInt32.toNat fun _ _ => UInt32.toNat_inj.mp⟩
  | .ull => ⟨UInt64, LinearOrder.lift' UInt64.toNat fun _ _ => UInt64.toNat_inj.mp⟩
  | .string => ⟨Bytes, LinearOrder.lift' (List.map UInt8.toNat)
      fun _ _ h => List.map_injective_iff.mpr (fun _ _ => UInt8.toNat_inj.mp) h⟩
  | .vector t => ⟨List t.model.1, letI := t.model.2; inferInstance⟩
  | .map k t => letI := k.model.2; letI := t.model.2; ⟨StdMap k.model.1 t.model.1, inferInstance⟩

abbrev Ty.Val (t : Ty) : Type := t.model.1

instance (t : Ty) : LinearOrder t.Val := t.model.2

abbrev Arg := (t : Ty) × t.Val

end Values

section Writing

-- The buffer has _capa bytes.
structure Marshall where
  buf : Bytes
  ind : Nat

-- `none` is a write outside the buffer or an int that overflows.
abbrev Put := StateT Marshall Option Unit

-- What malloc and realloc leave in new memory.
variable (junk : Nat → UInt8)

-- marshall()
def Marshall.new : Marshall := ⟨(List.range DEFAULT_RPC_SZ).map junk, RPC_HEADER_SZ⟩

def realloc (capa : Nat) : Put := fun m =>
  if capa < 2 ^ 31 then some ((), { m with buf := m.buf ++ (List.range (capa - m.buf.length)).map junk })
  else none

-- memcpy into the buffer
def overwrite (buf : Bytes) (ind : Nat) (data : Bytes) : Bytes :=
  buf.take ind ++ data ++ buf.drop (ind + data.length)

def store (data : Bytes) : Put := fun m =>
  if m.ind + data.length ≤ m.buf.length then some ((), ⟨overwrite m.buf m.ind data, m.ind + data.length⟩)
  else none

def Marshall.rawbyte (x : UInt8) : Put := do
  let m ← get
  if m.buf.length ≤ m.ind then
    realloc junk (2 * m.buf.length)
  store [x]

def Marshall.rawbytes (p : Bytes) : Put := do
  let m ← get
  if m.ind + p.length > m.buf.length then
    realloc junk (if m.buf.length > p.length then 2 * m.buf.length else m.buf.length + p.length)
  store p

-- operator<<
def putBool (x : Bool) : Put := Marshall.rawbyte junk (if x then 1 else 0)

def putUchar (x : UInt8) : Put := Marshall.rawbyte junk x

def putChar (x : Int8) : Put := putUchar junk x.toUInt8

def putUshort (x : UInt16) : Put := do
  Marshall.rawbyte junk (x >>> 8 &&& 0xff).toUInt8
  Marshall.rawbyte junk (x &&& 0xff).toUInt8

def putShort (x : Int16) : Put := putUshort junk x.toUInt16

def putUint (x : UInt32) : Put := do
  Marshall.rawbyte junk (x >>> 24 &&& 0xff).toUInt8
  Marshall.rawbyte junk (x >>> 16 &&& 0xff).toUInt8
  Marshall.rawbyte junk (x >>> 8 &&& 0xff).toUInt8
  Marshall.rawbyte junk (x &&& 0xff).toUInt8

def putInt (x : Int32) : Put := putUint junk x.toUInt32

def putString (s : Bytes) : Put := do
  putUint junk (UInt32.ofNat s.length)
  Marshall.rawbytes junk s

def putUll (x : UInt64) : Put := do
  putUint junk (x >>> 32).toUInt32
  putUint junk x.toUInt32

def putVector {α : Type} (put : α → Put) (v : List α) : Put := do
  putUint junk (UInt32.ofNat v.length)
  v.forM put

def putMap {α β : Type} [LinearOrder α] (putKey : α → Put) (put : β → Put) (d : StdMap α β) : Put := do
  putUint junk (UInt32.ofNat d.entries.length)
  d.entries.forM fun e => do
    putKey e.1
    put e.2

def Ty.put : (t : Ty) → t.Val → Put
  | .bool => putBool junk
  | .char => putChar junk
  | .uchar => putUchar junk
  | .short => putShort junk
  | .ushort => putUshort junk
  | .int => putInt junk
  | .uint => putUint junk
  | .ull => putUll junk
  | .string => putString junk
  | .vector t => putVector junk t.put
  | .map k t => putMap junk k.put t.put

def putArgs (args : List Arg) : Put := args.forM fun arg => arg.1.put junk arg.2

-- The shift of a signed int is arithmetic.
def pack (x : Int32) : Put := do
  Marshall.rawbyte junk (x >>> 24 &&& 0xff).toUInt32.toUInt8
  Marshall.rawbyte junk (x >>> 16 &&& 0xff).toUInt32.toUInt8
  Marshall.rawbyte junk (x >>> 8 &&& 0xff).toUInt32.toUInt8
  Marshall.rawbyte junk (x &&& 0xff).toUInt32.toUInt8

-- The header goes behind the size of the PDU, with the arguments already there.
def atHeader (body : Put) : Put := do
  let savedSz := (← get).ind
  modify ({ · with ind := SIZE_SZ })
  body
  modify ({ · with ind := savedSz })

def packReqHeader (h : ReqHeader) : Put := atHeader do
  pack junk h.xid
  pack junk h.proc
  pack junk h.cltNonce.toInt32
  pack junk h.srvNonce.toInt32
  pack junk h.xidRep

def packReplyHeader (h : ReplyHeader) : Put := atHeader do
  pack junk h.xid
  pack junk h.ret

def packHeader : Header → Put
  | .req h => packReqHeader junk h
  | .reply h => packReplyHeader junk h

def Marshall.takeBuf (m : Marshall) : Bytes × Nat := (m.buf, m.ind)

end Writing

section Reading

-- _sz is an int.
structure Unmarshall where
  buf : Bytes
  ind : Nat
  ok : Bool
  fits : buf.length < 2 ^ 31

-- `none` is a read outside the buffer.
abbrev Get := StateT Unmarshall Option

def Unmarshall.okdone (u : Unmarshall) : Bool := u.ok && u.ind == u.buf.length

-- A char that becomes an unsigned int is sign-extended.
def Unmarshall.rawbyte : Get UInt32 := fun u =>
  if h : u.ind < u.buf.length then some ((u.buf[u.ind]).toInt8.toInt32.toUInt32, { u with ind := u.ind + 1 })
  else some (0, { u with ok := false })

-- A string that cannot be read stays as it was: empty. The sum of the check is an unsigned int.
def Unmarshall.rawbytes (n : UInt32) : Get Bytes := fun u =>
  if (u.ind + n.toNat) % 2 ^ 32 > u.buf.length then some ([], { u with ok := false })
  else if u.ind + n.toNat ≤ u.buf.length then
    some ((u.buf.drop u.ind).take n.toNat, { u with ind := u.ind + n.toNat })
  else none

-- operator>>
def getBool : Get Bool := do
  let x ← Unmarshall.rawbyte
  pure (x != 0)

def getUchar : Get UInt8 := do
  let x ← Unmarshall.rawbyte
  pure x.toUInt8

def getChar : Get Int8 := do
  let x ← Unmarshall.rawbyte
  pure x.toUInt8.toInt8

def getUshort : Get UInt16 := do
  let a ← Unmarshall.rawbyte
  let b ← Unmarshall.rawbyte
  pure (((a &&& 0xff) <<< 8).toUInt16 ||| (b &&& 0xff).toUInt16)

def getShort : Get Int16 := do
  let x ← getUshort
  pure x.toInt16

def getUint : Get UInt32 := do
  let a ← Unmarshall.rawbyte
  let b ← Unmarshall.rawbyte
  let c ← Unmarshall.rawbyte
  let d ← Unmarshall.rawbyte
  pure ((a &&& 0xff) <<< 24 ||| (b &&& 0xff) <<< 16 ||| (c &&& 0xff) <<< 8 ||| (d &&& 0xff))

def getInt : Get Int32 := do
  let x ← getUint
  pure x.toInt32

def getUll : Get UInt64 := do
  let h ← getUint
  let l ← getUint
  pure (l.toUInt64 ||| h.toUInt64 <<< 32)

def getString : Get Bytes := do
  let sz ← getUint
  if (← get).ok then Unmarshall.rawbytes sz else pure []

def getVector {α : Type} (read : Get α) : Get (List α) := do
  let n ← getUint
  loop (fun v => do let z ← read; pure (v ++ [z])) n.toNat []

def getMap {α β : Type} [LinearOrder α] (readKey : Get α) (read : Get β) : Get (StdMap α β) := do
  let n ← getUint
  loop (fun d => do let a ← readKey; let b ← read; pure (d.insert a b)) n.toNat .empty

def Ty.get : (t : Ty) → Get t.Val
  | .bool => getBool
  | .char => getChar
  | .uchar => getUchar
  | .short => getShort
  | .ushort => getUshort
  | .int => getInt
  | .uint => getUint
  | .ull => getUll
  | .string => getString
  | .vector t => getVector t.get
  | .map k t => getMap k.get t.get

def getArgs : List Ty → Get (List Arg)
  | [] => pure []
  | t :: rest => do
      let v ← t.get
      let args ← getArgs rest
      pure (⟨t, v⟩ :: args)

def unpack : Get Int32 := getInt

def behindSize {α : Type} (body : Get α) : Get α := do
  modify ({ · with ind := SIZE_SZ })
  let h ← body
  modify ({ · with ind := RPC_HEADER_SZ })
  pure h

def unpackReqHeader : Get ReqHeader := behindSize do
  let xid ← unpack
  let proc ← unpack
  let cltNonce ← unpack
  let srvNonce ← unpack
  let xidRep ← unpack
  pure ⟨xid, proc, cltNonce.toUInt32, srvNonce.toUInt32, xidRep⟩

def unpackReplyHeader : Get ReplyHeader := behindSize do
  let xid ← unpack
  let ret ← unpack
  pure ⟨xid, ret⟩

def unpackHeader : Kind → Get Header
  | .req => do
      let h ← unpackReqHeader
      pure (.req h)
  | .reply => do
      let h ← unpackReplyHeader
      pure (.reply h)

end Reading

section Wire

-- connection::writepdu puts the size into the first four bytes, in network order.
def netBytes (x : UInt32) : Bytes := [(x >>> 24).toUInt8, (x >>> 16).toUInt8, (x >>> 8).toUInt8, x.toUInt8]

-- The PDU that is sent: the arguments, the header, and any value in the place of the size.
def sent (junk : Nat → UInt8) (header : Header) (args : List Arg) (size : UInt32) : Option Bytes := do
  let (_, m) ← (do putArgs junk args; packHeader junk header : Put) (Marshall.new junk)
  let (buf, sz) := m.takeBuf
  pure ((overwrite buf 0 (netBytes size)).take sz)

-- The header and the arguments that are read from a PDU, and okdone() after that.
def received (kind : Kind) (types : List Ty) (pdu : Bytes) (hfits : pdu.length < 2 ^ 31) :
    Option (Header × List Arg × Bool) := do
  let (h, u) ← unpackHeader kind ⟨pdu, 0, true, hfits⟩
  let (args, u) ← getArgs types u
  pure (h, args, u.okdone)

-- The wire format.
def Ty.encode : (t : Ty) → t.Val → Bytes
  | .bool => fun (x : Bool) => [if x then 1 else 0]
  | .char => fun (x : Int8) => [x.toUInt8]
  | .uchar => fun (x : UInt8) => [x]
  | .short => fun (x : Int16) => [(x.toUInt16 >>> 8).toUInt8, x.toUInt16.toUInt8]
  | .ushort => fun (x : UInt16) => [(x >>> 8).toUInt8, x.toUInt8]
  | .int => fun (x : Int32) => netBytes x.toUInt32
  | .uint => netBytes
  | .ull => fun (x : UInt64) => netBytes (x >>> 32).toUInt32 ++ netBytes x.toUInt32
  | .string => fun (s : Bytes) => netBytes (UInt32.ofNat s.length) ++ s
  | .vector t => fun (v : List t.Val) => netBytes (UInt32.ofNat v.length) ++ v.flatMap t.encode
  | .map k t => fun (d : StdMap k.Val t.Val) =>
      netBytes (UInt32.ofNat d.entries.length) ++ d.entries.flatMap fun e => k.encode e.1 ++ t.encode e.2

def encodeArgs (args : List Arg) : Bytes := args.flatMap fun arg => arg.1.encode arg.2

end Wire

end CseLabs.Wire
