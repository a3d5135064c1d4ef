import CseLabs.ExtentService.Transparent
import CseLabs.Yfs.Client

namespace CseLabs.Yfs

open InodeManager (Bytes INODE_NUM MAXFILE BLOCK_SIZE)
open ExtentService (System Manager Env Coherent Record Stores put_stores)

section Reference

-- What the operations are for: a file is an array of bytes, 0 where nothing has been written.
def FileOp.reference : FileOp → Bytes → Bytes × Result
  | .read size off, bytes =>
      (bytes, .data ((List.range' off (min (off + size) bytes.length - off)).map (bytes.getD · 0)))
  | .write off data, bytes =>
      ((List.range (max bytes.length (off + data.length))).map fun i =>
        if off ≤ i ∧ i < off + data.length then data.getD (i - off) 0 else bytes.getD i 0,
        .written data.length)
  | .setattr size, bytes => ((List.range size).map (bytes.getD · 0), .ok)

def referenceAll (bytes : Bytes) : List FileOp → List Result × Bytes
  | [] => ([], bytes)
  | op :: rest =>
      ((op.reference bytes).2 :: (referenceAll (op.reference bytes).1 rest).1, (referenceAll (op.reference bytes).1 rest).2)

-- The length stays below the limit of a file.
def FileOp.Within (bytes : Bytes) (op : FileOp) : Prop := (op.reference bytes).1.length < MAXFILE * BLOCK_SIZE

instance (bytes : Bytes) (op : FileOp) : Decidable (op.Within bytes) := inferInstanceAs (Decidable (_ < _))

def AllWithin : Bytes → List FileOp → Prop
  | _, [] => True
  | bytes, op :: rest => op.Within bytes ∧ AllWithin (op.reference bytes).1 rest

end Reference

section Buffers

theorem getElem?_map_range' {α : Type} (f : Nat → α) (start count i : Nat) :
    ((List.range' start count).map f)[i]? = if i < count then some (f (start + i)) else none := by
  rw [List.getElem?_map]
  split
  · next h => rw [List.getElem?_range' h, Nat.one_mul, Option.map_some]
  · next h => rw [List.getElem?_eq_none (by rw [List.length_range']; omega), Option.map_none]

theorem getElem?_map_range {α : Type} (f : Nat → α) (count i : Nat) :
    ((List.range count).map f)[i]? = if i < count then some (f i) else none := by
  rw [List.range_eq_range', getElem?_map_range', Nat.zero_add]

theorem length_resize (buf : Bytes) (size : Nat) : (resize buf size).length = size := by
  rw [resize, List.length_append, List.length_take, List.length_replicate]
  omega

theorem getElem?_resize (buf : Bytes) (size i : Nat) :
    (resize buf size)[i]? = if i < size then some (buf.getD i 0) else none := by
  rw [resize, List.getElem?_append, List.length_take, List.getElem?_take, List.getElem?_replicate,
    List.getD_eq_getElem?_getD]
  grind

theorem resize_eq (buf : Bytes) (size : Nat) : resize buf size = (List.range size).map (buf.getD · 0) := by
  refine List.ext_getElem? fun i => ?_
  rw [getElem?_resize, getElem?_map_range]

-- The loop that fills the gap finds it filled.
theorem zeroFrom_resize (buf : Bytes) (size : Nat) {j : Nat} (count : Nat) (hj : buf.length ≤ j) :
    zeroFrom (resize buf size) j count = resize buf size := by
  induction count generalizing j with
  | zero => rfl
  | succ count ih =>
      have hset : (resize buf size).set j 0 = resize buf size := by
        refine List.ext_getElem? fun i => ?_
        rw [List.getElem?_set, length_resize]
        split
        · next h =>
            subst h
            rw [getElem?_resize, List.getD_eq_getElem?_getD, List.getElem?_eq_none hj]
            rfl
        · rfl
      rw [zeroFrom, hset]
      exact ih (by omega)

theorem getElem?_copyFrom (buf : Bytes) (j : Nat) (data : Bytes) (i : Nat) :
    (copyFrom buf j data)[i]? =
      if j ≤ i ∧ i < j + data.length ∧ i < buf.length then data[i - j]? else buf[i]? := by
  induction data generalizing buf j with
  | nil => rw [copyFrom, if_neg (by simp; omega)]
  | cons b data ih =>
      rw [copyFrom, ih, List.length_set, List.length_cons, List.getElem?_set]
      rcases Nat.lt_trichotomy i j with hlt | rfl | hgt
      · grind
      · grind
      · obtain ⟨k, rfl⟩ : ∃ k, i = j + 1 + k := ⟨i - (j + 1), by omega⟩
        have hk : j + 1 + k - j = k + 1 := by omega
        rw [Nat.add_sub_cancel_left, hk, List.getElem?_cons_succ]
        grind

-- The buffer that the second loop of write copies into.
theorem write_eq (buf : Bytes) {off : Nat} {data : Bytes} (h : off + data.length < 2 ^ 64) :
    Yfs.write buf off data = copyFrom (resize buf (max buf.length (off + data.length))) off data := by
  rw [Yfs.write, Nat.mod_eq_of_lt h]
  split
  · next hgrow => rw [zeroFrom_resize buf _ _ le_rfl, Nat.max_eq_right hgrow.le]
  · next hfits =>
      have hsame : resize buf buf.length = buf := by simp [resize]
      rw [Nat.max_eq_left (Nat.le_of_not_lt hfits), hsame]

theorem write_reference (bytes : Bytes) {off : Nat} {data : Bytes} (h : off + data.length < 2 ^ 64) :
    Yfs.write bytes off data = ((FileOp.write off data).reference bytes).1 := by
  rw [write_eq bytes h]
  refine List.ext_getElem? fun i => ?_
  rw [getElem?_copyFrom, length_resize, getElem?_resize, FileOp.reference, getElem?_map_range]
  by_cases hdata : off ≤ i ∧ i < off + data.length
  · have hi : i - off < data.length := by omega
    have hmax : i < max bytes.length (off + data.length) := by omega
    rw [if_pos ⟨hdata.1, hdata.2, hmax⟩, if_pos hmax, if_pos hdata, List.getElem?_eq_getElem hi,
      List.getD_eq_getElem?_getD, List.getElem?_eq_getElem hi, Option.getD_some]
  · rw [if_neg (by tauto), if_neg hdata]

-- off + size wraps around only when it is past any end.
theorem read_reference (bytes : Bytes) (size off : Nat) :
    Yfs.read bytes size off = (List.range' off (min (off + size) bytes.length - off)).map (bytes.getD · 0) := by
  have hread : Yfs.read bytes size off = (bytes.drop off).take size := by
    rw [Yfs.read]
    split
    · next hpast => rw [List.drop_eq_nil_of_le hpast.le, List.take_nil]
    · split
      · next hend =>
          have hall : bytes.length ≤ off + size := hend.le.trans (Nat.mod_le _ _)
          rw [List.take_of_length_le]
          rw [List.length_drop]
          omega
      · rfl
  rw [hread]
  refine List.ext_getElem? fun i => ?_
  rw [getElem?_map_range', List.getElem?_take, List.getElem?_drop, List.getD_eq_getElem?_getD]
  grind

theorem apply_reference {bytes : Bytes} {op : FileOp} (h : op.Within bytes) :
    op.apply bytes = op.reference bytes := by
  cases op with
  | read size off => rw [FileOp.apply, FileOp.reference, read_reference]
  | write off data =>
      have hlimit : MAXFILE * BLOCK_SIZE < 2 ^ 64 := by decide
      have hsum : off + data.length < 2 ^ 64 := by
        simp only [FileOp.Within, FileOp.reference, List.length_map, List.length_range] at h
        omega
      rw [FileOp.apply, write_reference bytes hsum]
      rfl
  | setattr size => rw [FileOp.apply, FileOp.reference, resize_eq]

end Buffers

section ByteArray

variable {σ : Type} {n : Nat} {m : Manager σ} {record : σ → Nat → Record} {s : System σ n}

theorem perform_put {env : Env} {c : Fin n} {op : Op} {id : Nat} {buf : Bytes} {after : Extent.Reply → Result}
    {s' : System σ n} (hnext : op.next (s.clientGet c op.ino).1 = some (.call (.put id buf) after))
    (hput : (s.clientGet c op.ino).2.put m env c id buf = some s') : perform m env s c op = some (after .ok, s') := by
  rw [perform, hnext]
  simp only [request, System.operate, System.handle, hput]
  rfl

-- An operation on a file that puts a new content.
theorem perform_call {env : Env} {c : Fin n} {ino : Nat} {op : FileOp} {req : Extent.Request}
    {after : Extent.Reply → Result} {s' : System σ n}
    (hnext : (Op.file ino op).next (s.clientGet c ino).1 = some (.call req after))
    (hput : (s.clientGet c ino).2.put m env c ino (op.apply (s.clientGet c ino).1).1 = some s') :
    perform m env s c (.file ino op) = some ((op.apply (s.clientGet c ino).1).2, s') := by
  obtain ⟨rfl, hafter⟩ := next_call hnext
  rw [← hafter .ok]
  exact perform_put hnext hput

-- One operation of a client on a file.
theorem perform_file (hm : Stores m record) (hs : Coherent s) (env : Env) (c : Fin n) {ino : Nat} {op : FileOp}
    (hino : ino < INODE_NUM) (hwithin : op.Within (s.server.dataCache ino)) :
    ∃ s', perform m env s c (.file ino op) = some ((op.reference (s.server.dataCache ino)).2, s') ∧
      s'.server.dataCache ino = (op.reference (s.server.dataCache ino)).1 := by
  obtain ⟨hbuf, -⟩ := hs.clientGet c ino
  rw [← apply_reference hwithin, ← hbuf]
  rw [FileOp.Within, ← apply_reference hwithin, ← hbuf] at hwithin
  cases hnext : (Op.file ino op).next (s.clientGet c ino).1 with
  | none => cases hnext
  | some next =>
      cases next with
      | done result =>
          have hsame := next_done hnext
          refine ⟨(s.clientGet c ino).2, ?_, ?_⟩
          · rw [perform]
            simp only [Op.ino, hnext, hsame]
          · rw [hsame, (clientGet_server s c ino).2.1, hbuf]
      | call req after =>
          obtain ⟨s', hput, hserver⟩ := put_stores env (s.clientGet c ino).2 hm c hino hwithin
          refine ⟨s', perform_call hnext hput, ?_⟩
          rw [hserver, Function.update_self]

-- The operations of a client on a file are those of the array of bytes.
theorem file_is_byte_array (hm : Stores m record) (hs : Coherent s) (c : Fin n) {ino : Nat} (hino : ino < INODE_NUM)
    (ops : List (Env × FileOp)) (hwithin : AllWithin (s.server.dataCache ino) (ops.map Prod.snd)) :
    ∃ s', performAll m s c (ops.map fun op => (op.1, .file ino op.2)) =
        some ((referenceAll (s.server.dataCache ino) (ops.map Prod.snd)).1, s') ∧
      (s'.clientGet c ino).1 = (referenceAll (s.server.dataCache ino) (ops.map Prod.snd)).2 := by
  induction ops generalizing s with
  | nil => exact ⟨s, rfl, (hs.clientGet c ino).1⟩
  | cons op ops ih =>
      obtain ⟨env, op⟩ := op
      obtain ⟨hop, hrest⟩ := hwithin
      obtain ⟨s₁, hperform, hcontent⟩ := perform_file hm hs env c hino hop
      have hs₁ := coherent_perform hs hperform
      dsimp only at hrest
      rw [← hcontent] at hrest
      obtain ⟨s', hall, hfinal⟩ := ih hs₁ hrest
      refine ⟨s', ?_, ?_⟩
      · rw [List.map_cons, performAll, hperform]
        simp only [hall, List.map_cons, referenceAll, hcontent, Option.map_some]
      · rw [hfinal, hcontent]
        rfl

-- Write, cut, grow again and read: what the cut took away does not come back.
theorem file_is_byte_array_regrown : ∃ s' : System (Nat → Record) 1,
    performAll ExtentService.recordManager ExtentService.recordSystem 0
        ([(ExtentService.someEnv, .write 2 [7, 8]), (ExtentService.someEnv, .setattr 3),
          (ExtentService.someEnv, .setattr 5), (ExtentService.someEnv, .read 10 1)].map
            fun op => (op.1, .file 2 op.2)) = some ([.written 2, .ok, .ok, .data [0, 7, 0, 0]], s') ∧
      (s'.clientGet 0 2).1 = [0, 0, 7, 0, 0] :=
  file_is_byte_array ExtentService.recordManager_stores
    (ExtentService.coherent_of_empty ⟨fun _ _ => ⟨rfl, rfl, rfl⟩, fun _ => ⟨rfl, rfl⟩⟩) 0 (by decide)
    [(ExtentService.someEnv, .write 2 [7, 8]), (ExtentService.someEnv, .setattr 3),
      (ExtentService.someEnv, .setattr 5), (ExtentService.someEnv, .read 10 1)]
    ⟨by decide, by decide, by decide, by decide, trivial⟩

end ByteArray

end CseLabs.Yfs
