import CseLabs.Wire

namespace CseLabs.Wire

section Calls

-- Reading a value of the type from u comes to a call of rawbytes as described: by the state it
-- is made in and the number of bytes it asks for.
def Ty.CallsRawbytes (call : Unmarshall → UInt32 → Prop) : Ty → Unmarshall → Prop
  | .string => fun u => ∃ sz u', getUint u = some (sz, u') ∧ u'.ok = true ∧ call u' sz
  | .vector t => faultAfter getUint (fun _ => False) fun n =>
      faultInLoop (fun v => do let z ← t.get; pure (v ++ [z])) (fun _ => t.CallsRawbytes call) n.toNat []
  | .map k t => faultAfter getUint (fun _ => False) fun n =>
      faultInLoop (fun d => do let a ← k.get; let b ← t.get; pure (StdMap.insert d a b))
        (fun _ => faultAfter k.get (k.CallsRawbytes call) fun _ => t.CallsRawbytes call) n.toNat .empty
  | _ => fun _ => False

-- The same for the values of a list of types, read one after another.
def CallsRawbytes (call : Unmarshall → UInt32 → Prop) : List Ty → Unmarshall → Prop
  | [] => fun _ => False
  | t :: rest => faultAfter t.get (t.CallsRawbytes call) fun _ => CallsRawbytes call rest

end Calls

section Bounds

variable {buf : Bytes} {u u' : Unmarshall}

-- 0 <= _ind <= _sz, over the bytes that were received.
def Inside (buf : Bytes) (u : Unmarshall) : Prop := u.buf = buf ∧ u.ind ≤ buf.length

-- The sum of the check is taken modulo 2 ^ 32.
def Wraps (u : Unmarshall) (n : UInt32) : Prop := 2 ^ 32 ≤ u.ind + n.toNat

theorem rawbyte_faults : Faults (Inside buf) Unmarshall.rawbyte fun _ => False := by
  constructor
  · rintro u value u' ⟨hbuf, hind⟩ hrun
    rw [Unmarshall.rawbyte] at hrun
    split at hrun
    · next hlt =>
        cases hrun
        exact ⟨hbuf, hbuf ▸ hlt⟩
    · cases hrun
      exact ⟨hbuf, hind⟩
  · intro u _
    rw [Unmarshall.rawbyte]
    split <;> simp

-- Either the check clears _ok, or it has let through what wraps or what is there.
theorem rawbytes_faults (n : UInt32) : Faults (Inside buf) (Unmarshall.rawbytes n) fun u => Wraps u n := by
  have hn := n.toNat_lt
  constructor
  · rintro u value u' ⟨hbuf, hind⟩ hrun
    rw [Unmarshall.rawbytes] at hrun
    split at hrun
    · cases hrun
      exact ⟨hbuf, hind⟩
    · split at hrun
      · next hle =>
          cases hrun
          exact ⟨hbuf, hbuf ▸ hle⟩
      · cases hrun
  · rintro u ⟨rfl, hind⟩
    have hfits := u.fits
    rw [Unmarshall.rawbytes, Wraps]
    split
    · simp only [reduceCtorEq, false_iff]
      omega
    · split
      · simp only [reduceCtorEq, false_iff]
        omega
      · simp only [true_iff]
        omega

theorem getUshort_faults : Faults (Inside buf) getUshort fun _ => False := by
  have hbyte : Faults (Inside buf) Unmarshall.rawbyte _ := rawbyte_faults
  refine (hbyte.bind fun a => hbyte.map _).congr fun u _ => ?_
  simp [faultAfter]

theorem getUint_faults : Faults (Inside buf) getUint fun _ => False := by
  have hbyte : Faults (Inside buf) Unmarshall.rawbyte _ := rawbyte_faults
  refine (hbyte.bind fun a => hbyte.bind fun b => hbyte.bind fun c => hbyte.map _).congr fun u _ => ?_
  simp [faultAfter]

theorem getUll_faults : Faults (Inside buf) getUll fun _ => False := by
  refine (getUint_faults.bind fun h => getUint_faults.map _).congr fun u _ => ?_
  simp [faultAfter]

theorem getString_faults : Faults (Inside buf) getString (Ty.CallsRawbytes Wraps .string) := by
  -- the string is read if the length was
  have hrest : ∀ sz, Faults (Inside buf) (do if (← get).ok then Unmarshall.rawbytes sz else pure [])
      fun u => u.ok = true ∧ Wraps u sz := by
    intro sz
    have hrun : ∀ u : Unmarshall, ((do if (← get).ok then Unmarshall.rawbytes sz else pure []) : Get Bytes) u =
        if u.ok then Unmarshall.rawbytes sz u else some ([], u) := by
      intro u
      show (if u.ok then Unmarshall.rawbytes sz else pure [] : Get Bytes) u = _
      split <;> rfl
    constructor
    · intro u value u' hinv h
      rw [hrun] at h
      split at h
      · exact (rawbytes_faults sz).kept u value u' hinv h
      · cases h
        exact hinv
    · intro u hinv
      rw [hrun]
      split
      · next hok => simp only [(rawbytes_faults sz).iff u hinv, hok, true_and]
      · next hok => simp [hok]
  refine (getUint_faults.bind hrest).congr fun u _ => ?_
  simp [faultAfter, Ty.CallsRawbytes]

-- Every reader stays inside the buffer, except for the calls of rawbytes that wrap.
theorem get_faults (t : Ty) : Faults (Inside buf) t.get (t.CallsRawbytes Wraps) := by
  induction t with
  | bool => exact rawbyte_faults.map _
  | char => exact rawbyte_faults.map _
  | uchar => exact rawbyte_faults.map _
  | short => exact getUshort_faults.map _
  | ushort => exact getUshort_faults
  | int => exact getUint_faults.map _
  | uint => exact getUint_faults
  | ull => exact getUll_faults
  | string => exact getString_faults
  | vector t ih => exact getUint_faults.bind fun n => Faults.loop (fun v => ih.map _) n.toNat []
  | map k t ihk iht =>
      exact getUint_faults.bind fun n => Faults.loop (fun d => ihk.bind fun a => iht.map _) n.toNat StdMap.empty

theorem getArgs_faults (types : List Ty) : Faults (Inside buf) (getArgs types) (CallsRawbytes Wraps types) := by
  induction types with
  | nil => exact faults_pure _
  | cons t rest ih => exact (get_faults t).bind fun v => ih.map _

-- rawbytes stays inside the buffer exactly for the lengths that do not wrap, and a sequence of
-- reads does exactly if it makes no call of rawbytes with one that does.
theorem unmarshall_in_bounds (u : Unmarshall) (hind : u.ind ≤ u.buf.length) :
    (∀ n, (∃ ss u', Unmarshall.rawbytes n u = some (ss, u') ∧ (u'.ok = false ∨ n.toNat ≤ u.buf.length - u.ind)) ↔
      u.ind + n.toNat < 2 ^ 32) ∧
    ∀ types, (∃ args u', getArgs types u = some (args, u') ∧ u'.buf = u.buf ∧ u'.ind ≤ u.buf.length) ↔
      ¬ CallsRawbytes Wraps types u := by
  have hinside : Inside u.buf u := ⟨rfl, hind⟩
  constructor
  · intro n
    have hfault := (rawbytes_faults n).iff u hinside
    rw [Wraps] at hfault
    rw [← not_le, ← hfault]
    constructor
    · rintro ⟨ss, u', hrun, -⟩ hnone
      rw [hrun] at hnone
      cases hnone
    · intro hsome
      rw [Unmarshall.rawbytes] at hsome ⊢
      split
      · exact ⟨_, _, rfl, .inl rfl⟩
      · split
        · exact ⟨_, _, rfl, .inr (by omega)⟩
        · next hwraps hlong => exact absurd (by rw [if_neg hwraps, if_neg hlong]) hsome
  · intro types
    rw [← (getArgs_faults types).iff u hinside]
    constructor
    · rintro ⟨args, u', hrun, -⟩ hnone
      rw [hrun] at hnone
      cases hnone
    · intro hsome
      obtain ⟨⟨args, u'⟩, hrun⟩ := Option.ne_none_iff_exists'.mp hsome
      exact ⟨args, u', hrun, (getArgs_faults types).kept u args u' hinside hrun⟩

-- A string of three bytes, a number, and a string of which only one byte of nine is there.
def threeArgs : Unmarshall := ⟨[0, 0, 0, 3, 97, 98, 99, 0, 0, 1, 0, 0, 0, 0, 9, 65], 0, true, by decide⟩

theorem unmarshall_in_bounds_args : ¬ CallsRawbytes Wraps [.string, .int, .string] threeArgs ∧
    ∃ ss u', Unmarshall.rawbytes 9 { threeArgs with ind := 15 } = some (ss, u') ∧
      (u'.ok = false ∨ UInt32.toNat 9 ≤ threeArgs.buf.length - 15) := by
  have hrun : (getArgs [.string, .int, .string] threeArgs).map (fun out => (out.2.buf, out.2.ind, out.2.ok)) =
      some (threeArgs.buf, 15, false) := by
    decide +kernel
  obtain ⟨⟨args, u'⟩, hargs, hfields⟩ := Option.map_eq_some_iff.mp hrun
  simp only [Prod.mk.injEq] at hfields
  obtain ⟨hbuf, hind, -⟩ := hfields
  constructor
  · exact ((unmarshall_in_bounds threeArgs (by decide)).2 [.string, .int, .string]).mp
      ⟨args, u', hargs, hbuf, hind.trans_le (by decide)⟩
  · exact ((unmarshall_in_bounds { threeArgs with ind := 15 } (by decide)).1 9).mpr (by decide)

-- A length of 2 ^ 32 - 4 and nothing behind it: 4 plus the length is 0.
def hugeString : Unmarshall := ⟨[255, 255, 255, 252], 0, true, by decide⟩

theorem read_past_buffer : hugeString.buf.length ≤ MAX_PDU ∧ hugeString.ind ≤ hugeString.buf.length ∧
    getArgs [.string] hugeString = none :=
  ⟨by decide, by decide, Option.isNone_iff_eq_none.mp (by decide)⟩

end Bounds

end CseLabs.Wire
