import Mathlib.Data.List.TakeWhile
import CseLabs.InodeManager

namespace CseLabs.Directory

open InodeManager (Bytes INODE_NUM)

def COLON : UInt8 := 58
def SLASH : UInt8 := 47

@[ext] structure Dirent where
  name : Bytes
  inum : Nat
  deriving DecidableEq

section Numbers

def isSpace (c : UInt8) : Bool := c == 32 || (9 ≤ c && c ≤ 13)

def isDigit (c : UInt8) : Bool := 48 ≤ c && c ≤ 57

def decimal (digits : Bytes) : Nat := digits.foldl (fun v c => 10 * v + (c.toNat - 48)) 0

-- istringstream >> unsigned long long: blanks are skipped, a sign is accepted, a text without
-- digits gives 0, and a number that does not fit gives the largest one. A text of blanks only
-- leaves finum uninitialised.
def n2i (n : Bytes) : Option Nat :=
  match n.dropWhile isSpace with
  | [] => none
  | 45 :: rest =>
      let v := decimal (rest.takeWhile isDigit)
      some (if 2 ^ 64 ≤ v then 2 ^ 64 - 1 else (2 ^ 64 - v) % 2 ^ 64)
  | 43 :: rest => some (min (decimal (rest.takeWhile isDigit)) (2 ^ 64 - 1))
  | text => some (min (decimal (text.takeWhile isDigit)) (2 ^ 64 - 1))

def filename (inum : Nat) : Bytes := (Nat.toDigits 10 inum).map fun c => UInt8.ofNat c.toNat

end Numbers

section Content

-- What extent_server::create and createSymLink append to the parent.
def entry (name : Bytes) (id : Nat) : Bytes := name ++ COLON :: (filename id ++ [SLASH])

-- std::string::find and substr
def find (buf : Bytes) (ch : UInt8) (pos : Nat) : Option Nat :=
  ((buf.drop pos).findIdx? (· == ch)).map (pos + ·)

def substr (buf : Bytes) (pos count : Nat) : Bytes := (buf.drop pos).take count

-- What readdir puts into its list.
abbrev Found := Bytes × Option Nat

def Dirent.found (e : Dirent) : Found := (e.name, some e.inum)

-- The while loop of readdir. none: the fuel has run out.
def readdirLoop : Nat → Bytes → Nat → Option (List Found)
  | 0, _, _ => none
  | fuel + 1, buf, nmStart =>
      match find buf COLON nmStart with
      | none => some []
      | some nmEnd =>
          let name := substr buf nmStart (nmEnd - nmStart)
          let inumStart := nmEnd + 1
          match find buf SLASH inumStart with
          | some inumEnd =>
              (readdirLoop fuel buf (inumEnd + 1)).map
                ((name, n2i (substr buf inumStart (inumEnd - inumStart))) :: ·)
          | none =>
              -- inum_end is npos, that is -1: the rest of the content, and back to its start
              (readdirLoop fuel buf 0).map ((name, n2i (buf.drop inumStart)) :: ·)

-- A round that goes forward moves past two bytes at least. none: the loop does not end.
def readdirList (buf : Bytes) : Option (List Found) := readdirLoop (buf.length + 1) buf 0

-- none: the loop does not end, or the list has a number that is uninitialised.
def readdir (buf : Bytes) : Option (List Dirent) := do
  let list ← readdirList buf
  list.mapM fun (name, inum) => inum.map (⟨name, ·⟩)

-- found and ino_out
def lookup (buf name : Bytes) : Option (Option Nat) := do
  let list ← readdirList buf
  match list.find? (·.1 = name) with
  | none => some none
  | some (_, inum) => inum.map some

def encode (entries : List Dirent) : Bytes := entries.flatMap fun e => entry e.name e.inum

end Content

section Digits

theorem toNat_ofNat_digit {c : Char} (h : c.isDigit = true) : (UInt8.ofNat c.toNat).toNat = c.toNat := by
  have hle : c.toNat ≤ 57 := (Char.isDigit_iff_toNat.mp h).2
  exact UInt8.toNat_ofNat_of_lt' (hle.trans_lt (by decide))

theorem isDigit_filename (inum : Nat) : ∀ c ∈ filename inum, isDigit c = true := by
  intro c hc
  obtain ⟨d, hd, rfl⟩ := List.mem_map.mp hc
  have hdigit := Nat.isDigit_of_mem_toDigits (by decide) (by decide) hd
  have hrange := Char.isDigit_iff_toNat.mp hdigit
  simp only [isDigit, Bool.and_eq_true, decide_eq_true_eq, UInt8.le_iff_toNat_le, toNat_ofNat_digit hdigit]
  exact hrange

theorem slash_notMem_filename (inum : Nat) : SLASH ∉ filename inum :=
  fun hmem => absurd (isDigit_filename inum SLASH hmem) (by decide)

theorem decimal_filename (inum : Nat) : decimal (filename inum) = inum := by
  have hfold : ∀ (cs : List Char) (v : Nat), (∀ c ∈ cs, c.isDigit = true) →
      (cs.map fun c => UInt8.ofNat c.toNat).foldl (fun v c => 10 * v + (c.toNat - 48)) v =
        Nat.ofDigitChars 10 cs v := by
    intro cs
    induction cs with
    | nil => intro v _; rfl
    | cons c cs ih =>
        intro v hcs
        rw [List.map_cons, List.foldl_cons, Nat.ofDigitChars_cons, toNat_ofNat_digit (hcs c List.mem_cons_self)]
        exact ih _ fun d hd => hcs d (List.mem_cons_of_mem c hd)
  rw [decimal, filename, hfold _ 0 fun c hc => Nat.isDigit_of_mem_toDigits (by decide) (by decide) hc]
  exact Nat.ofDigitChars_toDigits (by decide) (by decide)

theorem n2i_filename {inum : Nat} (h : inum < 2 ^ 64) : n2i (filename inum) = some inum := by
  have hdigits := isDigit_filename inum
  have hall : (filename inum).takeWhile isDigit = filename inum := List.takeWhile_eq_self_iff.mpr hdigits
  have hvalue := decimal_filename inum
  -- the text starts with a digit, so nothing is skipped and there is no sign
  cases htext : filename inum with
  | nil => exact absurd (List.map_eq_nil_iff.mp htext) Nat.toDigits_ne_nil
  | cons c rest =>
      rw [htext] at hdigits hall hvalue
      have hc := hdigits c List.mem_cons_self
      have hspace : isSpace c = false := by
        by_contra hne
        simp only [isDigit, isSpace, Bool.and_eq_true, decide_eq_true_eq, UInt8.le_iff_toNat_le, Bool.or_eq_true,
          beq_iff_eq, Bool.not_eq_false, ← UInt8.toNat_inj] at hc hne
        have h48 : (48 : UInt8).toNat = 48 := rfl
        have h32 : (32 : UInt8).toNat = 32 := rfl
        have h13 : (13 : UInt8).toNat = 13 := rfl
        omega
      rw [n2i, List.dropWhile_cons_of_neg (by simp [hspace])]
      split
      · next heq => cases heq
      · next heq =>
          cases heq
          exact absurd hc (by decide)
      · next heq =>
          cases heq
          exact absurd hc (by decide)
      · rw [hall, hvalue]
        exact congrArg some (min_eq_left (by omega))

end Digits

section RoundTrip

theorem find_append (pre post : Bytes) {mid : Bytes} {ch : UInt8} (h : ch ∉ mid) :
    find (pre ++ (mid ++ ch :: post)) ch pre.length = some (pre.length + mid.length) := by
  have hmid : mid.findIdx? (· == ch) = none := by
    rw [List.findIdx?_eq_none_iff]
    intro x hx
    simp only [beq_eq_false_iff_ne]
    rintro rfl
    exact h hx
  rw [find, List.drop_left, List.findIdx?_append, hmid]
  simp [List.findIdx?_cons]

theorem substr_append (pre mid post : Bytes) :
    substr (pre ++ (mid ++ post)) pre.length mid.length = mid := by
  rw [substr, List.drop_left, List.take_left]

theorem encode_cons (e : Dirent) (entries : List Dirent) :
    encode (e :: entries) = e.name ++ COLON :: (filename e.inum ++ SLASH :: encode entries) := by
  simp [encode, entry]

theorem encode_append (entries more : List Dirent) : encode (entries ++ more) = encode entries ++ encode more :=
  List.flatMap_append

theorem length_le_encode (entries : List Dirent) : entries.length ≤ (encode entries).length := by
  induction entries with
  | nil => exact Nat.zero_le _
  | cons e entries ih =>
      rw [encode_cons]
      simp only [List.length_cons, List.length_append]
      omega

-- Names without a colon.
def Plain (entries : List Dirent) : Prop := ∀ e ∈ entries, COLON ∉ e.name ∧ e.inum < 2 ^ 64

-- One round of the loop, in front of an entry whose text up to the colon is head.
theorem readdirLoop_round {head : Bytes} (hcolon : COLON ∉ head) (fuel : Nat) (pre rest : Bytes) :
    readdirLoop (fuel + 1) (pre ++ (head ++ COLON :: rest)) pre.length =
      match find (pre ++ (head ++ COLON :: rest)) SLASH (pre.length + head.length + 1) with
      | some inumEnd =>
          (readdirLoop fuel (pre ++ (head ++ COLON :: rest)) (inumEnd + 1)).map
            ((head, n2i (substr (pre ++ (head ++ COLON :: rest)) (pre.length + head.length + 1)
              (inumEnd - (pre.length + head.length + 1)))) :: ·)
      | none =>
          (readdirLoop fuel (pre ++ (head ++ COLON :: rest)) 0).map
            ((head, n2i ((pre ++ (head ++ COLON :: rest)).drop (pre.length + head.length + 1))) :: ·) := by
  rw [readdirLoop, find_append pre rest hcolon]
  dsimp only
  rw [Nat.add_sub_cancel_left, substr_append]

-- The rounds that read entries without a colon in a name, whatever follows them.
theorem readdirLoop_append {entries : List Dirent} (hplain : Plain entries) (fuel : Nat) (pre post : Bytes) :
    readdirLoop (entries.length + fuel) (pre ++ (encode entries ++ post)) pre.length =
      (readdirLoop fuel (pre ++ (encode entries ++ post)) (pre ++ encode entries).length).map
        (entries.map Dirent.found ++ ·) := by
  induction entries generalizing pre with
  | nil => simp [encode]
  | cons e entries ih =>
      obtain ⟨hcolon, hinum⟩ := hplain e List.mem_cons_self
      let rest := filename e.inum ++ SLASH :: (encode entries ++ post)
      have hbuf : encode (e :: entries) ++ post = e.name ++ COLON :: rest := by simp [encode_cons, rest]
      -- the content seen from behind the colon, and from behind the slash
      have hafter : pre ++ (e.name ++ COLON :: rest) =
          (pre ++ e.name ++ [COLON]) ++ (filename e.inum ++ SLASH :: (encode entries ++ post)) := by simp [rest]
      have hrest : pre ++ (e.name ++ COLON :: rest) =
          (pre ++ e.name ++ [COLON] ++ filename e.inum ++ [SLASH]) ++ (encode entries ++ post) := by simp [rest]
      have hstart : pre.length + e.name.length + 1 = (pre ++ e.name ++ [COLON]).length := by simp; omega
      have hinumEnd : find (pre ++ (e.name ++ COLON :: rest)) SLASH (pre.length + e.name.length + 1) =
          some (pre.length + e.name.length + 1 + (filename e.inum).length) := by
        rw [hafter, hstart]
        exact find_append _ _ (slash_notMem_filename e.inum)
      have htext : substr (pre ++ (e.name ++ COLON :: rest)) (pre.length + e.name.length + 1)
          (filename e.inum).length = filename e.inum := by
        rw [hafter, hstart]
        exact substr_append _ _ _
      have hnext : pre.length + e.name.length + 1 + (filename e.inum).length + 1 =
          (pre ++ e.name ++ [COLON] ++ filename e.inum ++ [SLASH]).length := by simp; omega
      have hend : (pre ++ e.name ++ [COLON] ++ filename e.inum ++ [SLASH] ++ encode entries).length =
          (pre ++ encode (e :: entries)).length := by simp [encode_cons]
      have hloop := ih (fun d hd => hplain d (List.mem_cons_of_mem e hd))
        (pre ++ e.name ++ [COLON] ++ filename e.inum ++ [SLASH])
      rw [hbuf, List.length_cons, Nat.add_right_comm, readdirLoop_round hcolon, hinumEnd]
      dsimp only
      rw [Nat.add_sub_cancel_left, htext, n2i_filename hinum, hnext, hrest, hloop, hend, Option.map_map]
      rfl

-- Behind the last byte the loop stops.
theorem readdirLoop_end (fuel : Nat) (buf : Bytes) : readdirLoop (fuel + 1) buf buf.length = some [] := by
  simp [readdirLoop, find]

theorem readdirList_encode {entries : List Dirent} (hplain : Plain entries) :
    readdirList (encode entries) = some (entries.map Dirent.found) := by
  obtain ⟨fuel, hfuel⟩ := Nat.exists_eq_add_of_le (length_le_encode entries)
  have hread := readdirLoop_append hplain (fuel + 1) [] []
  rw [List.nil_append, List.nil_append, List.append_nil, readdirLoop_end] at hread
  rw [readdirList, hfuel, Nat.add_assoc]
  simpa using hread

theorem readdir_eq_some {buf : Bytes} {entries : List Dirent} :
    readdir buf = some entries ↔ readdirList buf = some (entries.map Dirent.found) := by
  have hmap : ∀ list : List Found, (list.mapM fun (name, inum) => inum.map (Dirent.mk name)) = some entries ↔
      list = entries.map Dirent.found := by
    intro list
    induction list generalizing entries with
    | nil => cases entries <;> simp
    | cons head rest ih =>
        obtain ⟨name, inum⟩ := head
        cases inum with
        | none => cases entries <;> simp [Dirent.found]
        | some inum =>
            cases entries with
            | nil => simp [Option.bind_eq_some_iff]
            | cons e entries => simpa [Option.bind_eq_some_iff, ih, Dirent.found, Dirent.ext_iff] using and_comm
  rw [readdir, Option.bind_eq_bind, Option.bind_eq_some_iff]
  constructor
  · rintro ⟨list, hlist, hentries⟩
    rw [hlist, (hmap list).mp hentries]
  · exact fun hlist => ⟨_, hlist, (hmap _).mpr rfl⟩

-- readdir gives back what the server has appended entry by entry.
theorem readdir_encode {entries : List Dirent} (hplain : Plain entries) : readdir (encode entries) = some entries :=
  readdir_eq_some.mpr (readdirList_encode hplain)

theorem lookup_encode {entries : List Dirent} (hplain : Plain entries) (name : Bytes) :
    lookup (encode entries) name = some ((entries.find? fun e => e.name = name).map Dirent.inum) := by
  rw [lookup, readdirList_encode hplain, Option.bind_eq_bind, Option.bind_some, List.find?_map]
  change (match (entries.find? fun e => e.name = name).map Dirent.found with
    | none => some none
    | some (_, inum) => inum.map some) = _
  cases entries.find? fun e => e.name = name with
  | none => rfl
  | some e => rfl

-- A name with a colon is read up to its first colon.
theorem readdir_colon {before after : List Dirent} {e : Dirent} {head tail : Bytes} (hplain : Plain before)
    (hname : e.name = head ++ COLON :: tail) (hcolon : COLON ∉ head) {list : List Found}
    (hread : readdirList (encode (before ++ e :: after)) = some list) :
    (list.drop before.length).head?.map Prod.fst = some head := by
  let rest := tail ++ COLON :: (filename e.inum ++ SLASH :: encode after)
  have hbuf : encode (before ++ e :: after) = encode before ++ (head ++ COLON :: rest) := by
    simp [encode_append, encode_cons, hname, rest]
  have hlength : before.length ≤ (encode (before ++ e :: after)).length := by
    rw [hbuf, List.length_append]
    exact (length_le_encode before).trans (Nat.le_add_right _ _)
  obtain ⟨fuel, hfuel⟩ := Nat.exists_eq_add_of_le hlength
  have hloop := readdirLoop_append hplain (fuel + 1) [] (head ++ COLON :: rest)
  rw [List.nil_append, List.nil_append, List.length_nil, readdirLoop_round hcolon] at hloop
  rw [readdirList, hfuel, Nat.add_assoc, hbuf, hloop] at hread
  -- whether or not a slash follows, the round puts an entry named head in front
  obtain ⟨read, hround, rfl⟩ := Option.map_eq_some_iff.mp hread
  rw [List.drop_left' (List.length_map _)]
  split at hround
  · obtain ⟨more, -, rfl⟩ := Option.map_eq_some_iff.mp hround
    rfl
  · obtain ⟨more, -, rfl⟩ := Option.map_eq_some_iff.mp hround
    rfl

-- What the kernel lets through as a name, with a number of this file system.
def Legal (e : Dirent) : Prop := e.name ≠ [] ∧ SLASH ∉ e.name ∧ 0 ∉ e.name ∧ e.inum < INODE_NUM

instance (e : Dirent) : Decidable (Legal e) := inferInstanceAs (Decidable (_ ∧ _))

theorem plain_of_legal {entries : List Dirent} (hlegal : ∀ e ∈ entries, Legal e)
    (hcolon : ∀ e ∈ entries, COLON ∉ e.name) : Plain entries :=
  fun e he => ⟨hcolon e he, (hlegal e he).2.2.2.trans (by decide)⟩

-- Of the lists of legal names only those without a colon come back.
theorem readdirList_encode_iff {entries : List Dirent} (hlegal : ∀ e ∈ entries, Legal e) :
    readdirList (encode entries) = some (entries.map Dirent.found) ↔ ∀ e ∈ entries, COLON ∉ e.name := by
  refine ⟨fun hread => ?_, fun hcolon => readdirList_encode (plain_of_legal hlegal hcolon)⟩
  cases hfirst : entries.find? (fun e => decide (COLON ∈ e.name)) with
  | none =>
      simpa using List.find?_eq_none.mp hfirst
  | some e =>
      -- the first name with a colon
      obtain ⟨hcolon, before, after, rfl, hbefore⟩ := List.find?_eq_some_iff_append.mp hfirst
      have hplain : Plain before :=
        plain_of_legal (fun d hd => hlegal d (List.mem_append_left _ hd)) (by simpa using hbefore)
      obtain ⟨head, tail, hname, hhead⟩ := List.eq_append_cons_of_mem (of_decide_eq_true hcolon)
      have hgot := readdir_colon hplain hname hhead hread
      rw [List.map_append, List.drop_left' (List.length_map _), List.map_cons, List.head?_cons, Option.map_some,
        Dirent.found, hname, Option.some.injEq] at hgot
      simpa using congrArg List.length hgot

end RoundTrip

end CseLabs.Directory
