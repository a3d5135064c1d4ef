import Mathlib.Data.List.Infix
import CseLabs.ExtentService

namespace CseLabs.ExtentService

open InodeManager (Bytes INODE_NUM)
open Directory

section Chunks

-- A byte that ends each of two texts for the first time.
theorem append_cons_inj_of_first {α : Type} {s : α} {a b c d : List α} (ha : s ∉ a) (hb : s ∉ b)
    (heq : a ++ s :: c = b ++ s :: d) : a = b ∧ c = d := by
  induction a generalizing b with
  | nil =>
      cases b with
      | nil => exact ⟨rfl, (List.cons.inj heq).2⟩
      | cons y b => exact absurd ((List.cons.inj heq).1 ▸ List.mem_cons_self) hb
  | cons x a ih =>
      cases b with
      | nil => exact absurd ((List.cons.inj heq).1 ▸ List.mem_cons_self) ha
      | cons y b =>
          obtain ⟨rfl, htail⟩ := List.cons.inj heq
          obtain ⟨rfl, rfl⟩ := ih (fun h => ha (List.mem_cons_of_mem x h)) (fun h => hb (List.mem_cons_of_mem x h)) htail
          exact ⟨rfl, rfl⟩

-- The chunks of a text in which each one is ended by s.
theorem terminated_inj {α : Type} {s : α} {xs ys : List (List α)} (hxs : ∀ x ∈ xs, s ∉ x) (hys : ∀ y ∈ ys, s ∉ y)
    (heq : xs.flatMap (· ++ [s]) = ys.flatMap (· ++ [s])) : xs = ys := by
  induction xs generalizing ys with
  | nil =>
      cases ys with
      | nil => rfl
      | cons y ys => simp at heq
  | cons x xs ih =>
      cases ys with
      | nil => simp at heq
      | cons y ys =>
          rw [List.flatMap_cons, List.flatMap_cons, List.append_assoc, List.append_assoc] at heq
          obtain ⟨rfl, hrest⟩ := append_cons_inj_of_first (hxs x List.mem_cons_self) (hys y List.mem_cons_self) heq
          rw [ih (fun z hz => hxs z (List.mem_cons_of_mem x hz)) (fun z hz => hys z (List.mem_cons_of_mem x hz)) hrest]

-- A text without s that starts in front of an s ends in front of it.
theorem prefix_of_prefix_terminated {α : Type} {s : α} {name a b : List α} (hs : s ∉ name)
    (h : name <+: a ++ s :: b) : name <+: a := by
  rcases Nat.le_total name.length a.length with hle | hle
  · exact List.prefix_of_prefix_length_le h (List.prefix_append a (s :: b)) hle
  · obtain ⟨c, rfl⟩ := List.prefix_of_prefix_length_le (List.prefix_append a (s :: b)) h hle
    cases c with
    | nil => rw [List.append_nil]
    | cons x c =>
        have hx := (List.prefix_append_right_inj a).mp h
        exact absurd (by simp [(List.cons_prefix_cons.mp hx).1]) hs

theorem infix_of_infix_terminated {α : Type} {s : α} {name a b : List α} (hs : s ∉ name)
    (h : name <:+: a ++ s :: b) : name <:+: a ∨ name <:+: b := by
  obtain ⟨u, v, huv⟩ := h
  rw [List.append_assoc, List.append_eq_append_iff] at huv
  rcases huv with ⟨c, rfl, hc⟩ | ⟨c, rfl, hc⟩
  · have hstart : name <+: c := prefix_of_prefix_terminated hs ⟨v, hc⟩
    exact .inl (hstart.isInfix.trans (List.suffix_append u c).isInfix)
  · cases c with
    | nil =>
        have hstart : name <+: [] := prefix_of_prefix_terminated hs ⟨v, hc.symm⟩
        rw [List.prefix_nil.mp hstart]
        exact .inl (List.nil_infix)
    | cons x c =>
        obtain ⟨-, rfl⟩ := List.cons.inj hc
        exact .inr ⟨c, v, List.append_assoc c name v⟩

end Chunks

section Entries

-- An entry without the slash that ends it.
def chunk (e : Dirent) : Bytes := e.name ++ COLON :: filename e.inum

theorem entry_eq_chunk (e : Dirent) : entry e.name e.inum = chunk e ++ [SLASH] := by
  simp [entry, chunk]

theorem encode_eq_chunks (entries : List Dirent) : encode entries = (entries.map chunk).flatMap (· ++ [SLASH]) := by
  simp [encode, List.flatMap_map, entry_eq_chunk]

theorem encode_cons_chunk (e : Dirent) (entries : List Dirent) :
    encode (e :: entries) = chunk e ++ SLASH :: encode entries := by
  simp [encode_cons, chunk]

-- An entry of a directory in which the separators do not occur in names.
def Named (e : Dirent) : Prop := e.name ≠ [] ∧ COLON ∉ e.name ∧ SLASH ∉ e.name ∧ e.inum < INODE_NUM

instance (e : Dirent) : Decidable (Named e) := inferInstanceAs (Decidable (_ ∧ _))

theorem plain_of_named {entries : List Dirent} (hnamed : ∀ e ∈ entries, Named e) : Plain entries :=
  fun e he => ⟨(hnamed e he).2.1, (hnamed e he).2.2.2.trans (by decide)⟩

theorem colon_notMem_filename (inum : Nat) : COLON ∉ filename inum :=
  fun hmem => absurd (isDigit_filename inum COLON hmem) (by decide)

theorem filename_injective {i j : Nat} (h : filename i = filename j) : i = j := by
  rw [← decimal_filename i, h, decimal_filename]

theorem Named.slash_notMem {e : Dirent} (h : Named e) : SLASH ∉ chunk e := by
  have hslash := h.2.2.1
  have hdigits := slash_notMem_filename e.inum
  have hne : SLASH ≠ COLON := by decide
  simp [chunk, hslash, hdigits, hne]

-- A chunk that ends another one: the end of its name, and the same number.
theorem Named.chunk_suffix {d e : Dirent} (hd : Named d) {x : Bytes} (h : chunk d = x ++ chunk e) :
    d = ⟨x ++ e.name, e.inum⟩ := by
  rw [chunk, chunk, ← List.append_assoc] at h
  obtain ⟨hname, -, hinum⟩ := (List.append_cons_inj_of_notMem hd.2.1 (colon_notMem_filename d.inum)).mp h
  cases d
  exact congrArg₂ Dirent.mk hname (filename_injective hinum)

-- The entry a position in the content falls into.
theorem exists_chunk_of_lt {entries : List Dirent} {p : Nat} (hp : p < (encode entries).length) :
    ∃ front d back x y, entries = front ++ d :: back ∧ chunk d = x ++ y ∧ p = (encode front).length + x.length := by
  induction entries generalizing p with
  | nil => exact absurd hp (Nat.not_lt_zero p)
  | cons e entries ih =>
      rw [encode_cons_chunk, List.length_append, List.length_cons] at hp
      rcases Nat.lt_or_ge (chunk e).length p with hlt | hle
      · obtain ⟨front, d, back, x, y, hsplit, hchunk, hpos⟩ := ih (p := p - ((chunk e).length + 1)) (by omega)
        refine ⟨e :: front, d, back, x, y, by rw [hsplit, List.cons_append], hchunk, ?_⟩
        rw [encode_cons_chunk, List.length_append, List.length_cons]
        omega
      · refine ⟨[], e, entries, (chunk e).take p, (chunk e).drop p, rfl, (List.take_append_drop p _).symm, ?_⟩
        simp [encode, hle]

theorem encode_split {front back : List Dirent} {d : Dirent} {x y : Bytes} (h : chunk d = x ++ y) :
    encode (front ++ d :: back) = encode front ++ x ++ (y ++ SLASH :: encode back) := by
  rw [encode_append, encode_cons_chunk, h]
  simp

end Entries

section Search

theorem beq_take_iff {buf name : Bytes} {i : Nat} :
    ((buf.drop i).take name.length == name) = true ↔ name <+: buf.drop i := by
  rw [beq_iff_eq, List.prefix_iff_eq_take, eq_comm]

theorem findText_eq_some {buf name : Bytes} {i : Nat} :
    findText buf name = some i ↔ i ≤ buf.length ∧ name <+: buf.drop i ∧ ∀ j < i, ¬name <+: buf.drop j := by
  simp only [findText, List.find?_range_eq_some, List.mem_range, Nat.lt_succ_iff, Bool.not_eq_true',
    ← Bool.not_eq_true, beq_take_iff]
  exact and_left_comm

theorem findText_eq_none {buf name : Bytes} : findText buf name = none ↔ ¬name <:+: buf := by
  simp only [findText, List.find?_range_eq_none, Nat.lt_succ_iff, Bool.not_eq_true', ← Bool.not_eq_true, beq_take_iff]
  constructor
  · rintro h ⟨a, b, rfl⟩
    exact h a.length (by simp) (by simp)
  · intro h i _ hat
    exact h (hat.isInfix.trans (List.drop_suffix i buf).isInfix)

-- The text up to the slash behind the first occurrence goes.
theorem eraseEntry_eq {u v w name : Bytes} (hfind : findText (u ++ (v ++ SLASH :: w)) name = some u.length)
    (hslash : SLASH ∉ v) : eraseEntry (u ++ (v ++ SLASH :: w)) name = some (u ++ w) := by
  have hdrop : (u ++ (v ++ SLASH :: w)).drop (u.length + v.length + 1) = w := by
    rw [← List.append_assoc, ← List.length_append, List.drop_append]
    simp
  simp only [eraseEntry, hfind, Option.bind_eq_bind, Option.bind_some, find_append u w hslash, List.take_left, hdrop]
  rfl

-- An entry behind others is found at its own place or, before that, inside one of them.
theorem findText_behind {before after : List Dirent} {e : Dirent} (hslash : SLASH ∉ e.name) :
    findText (encode (before ++ e :: after)) e.name =
      some ((findText (encode before) e.name).getD (encode before).length) := by
  let rest := COLON :: (filename e.inum ++ SLASH :: encode after)
  have hbuf : encode (before ++ e :: after) = encode before ++ (e.name ++ rest) := by
    rw [encode_append, encode_cons]
  -- an occurrence that starts in front of the entry is one in the text of the others
  have hinside : ∀ j < (encode before).length,
      (e.name <+: (encode before ++ (e.name ++ rest)).drop j ↔ e.name <+: (encode before).drop j) := by
    intro j hj
    obtain ⟨front, d, back, x, y, rfl, hchunk, rfl⟩ := exists_chunk_of_lt hj
    have hdrop : ∀ post, (encode (front ++ d :: back) ++ post).drop ((encode front).length + x.length) =
        y ++ SLASH :: (encode back ++ post) := by
      intro post
      rw [encode_split hchunk, List.append_assoc, ← List.length_append, List.drop_left, List.append_assoc,
        List.cons_append]
    have hown := hdrop []
    rw [List.append_nil, List.append_nil] at hown
    rw [hdrop, hown]
    constructor
    · intro h
      exact (prefix_of_prefix_terminated hslash h).trans (List.prefix_append y _)
    · intro h
      exact (prefix_of_prefix_terminated hslash h).trans (List.prefix_append y _)
  rw [hbuf, findText_eq_some]
  cases hfound : findText (encode before) e.name with
  | none =>
      refine ⟨by simp, by simp, fun j hj hat => ?_⟩
      have hat := (hinside j hj).mp hat
      exact findText_eq_none.mp hfound (hat.isInfix.trans (List.drop_suffix j _).isInfix)
  | some p =>
      obtain ⟨hle, hat, hfirst⟩ := findText_eq_some.mp hfound
      refine ⟨?_, ?_, fun j hj hj' => ?_⟩
      · rw [List.length_append]
        exact hle.trans (Nat.le_add_right _ _)
      · rw [Option.getD_some, List.drop_append_of_le_length hle]
        exact hat.trans (List.prefix_append _ _)
      · exact hfirst j hj ((hinside j (Nat.lt_of_lt_of_le hj hle)).mp hj')

end Search

section Removal

-- The name is found in front of its own entry in no name and in no number; or only at the end of
-- the name right before it, whose number is the same, so that the text is the same in the end.
def Removable (before : List Dirent) (e : Dirent) : Prop :=
  (∀ d ∈ before, ¬e.name <:+: d.name ∧ ¬e.name <:+: filename d.inum) ∨
    ∃ front x, before = front ++ [⟨x ++ e.name, e.inum⟩] ∧
      findText (encode before) e.name = some ((encode front).length + x.length)

-- A text without separators in the content is part of a name or of a number.
theorem infix_encode_iff {entries : List Dirent} {name : Bytes} (hne : name ≠ []) (hcolon : COLON ∉ name)
    (hslash : SLASH ∉ name) :
    name <:+: encode entries ↔ ∃ d ∈ entries, name <:+: d.name ∨ name <:+: filename d.inum := by
  constructor
  · rintro ⟨a, b, hab⟩
    have hlt : a.length < (encode entries).length := by
      have hpos := List.length_pos_of_ne_nil hne
      rw [← hab, List.length_append, List.length_append]
      omega
    obtain ⟨front, d, back, x, y, rfl, hchunk, hpos⟩ := exists_chunk_of_lt hlt
    rw [encode_split hchunk, List.append_assoc] at hab
    obtain ⟨-, htail⟩ := List.append_inj hab (by simp [hpos])
    have hy : name <+: y := prefix_of_prefix_terminated hslash ⟨b, htail⟩
    have hinside : name <:+: chunk d := hy.isInfix.trans (hchunk ▸ (List.suffix_append x y).isInfix)
    exact ⟨d, by simp, infix_of_infix_terminated hcolon hinside⟩
  · rintro ⟨d, hd, hinside⟩
    have hchunk : name <:+: chunk d := by
      rcases hinside with hname | hinum
      · exact hname.trans (List.prefix_append _ _).isInfix
      · exact hinum.trans ((List.suffix_cons COLON _).trans (List.suffix_append _ _)).isInfix
    obtain ⟨front, back, rfl⟩ := List.append_of_mem hd
    refine hchunk.trans ⟨encode front, SLASH :: encode back, ?_⟩
    rw [encode_append, encode_cons_chunk, List.append_assoc]

theorem findText_eq_none_iff {before : List Dirent} {e : Dirent} (he : Named e) :
    findText (encode before) e.name = none ↔
      ∀ d ∈ before, ¬e.name <:+: d.name ∧ ¬e.name <:+: filename d.inum := by
  obtain ⟨hne, hcolon, hslash, -⟩ := he
  rw [findText_eq_none, infix_encode_iff hne hcolon hslash]
  simp [not_or]

-- What the removal leaves when the name is found in its own entry.
theorem eraseEntry_own {before after : List Dirent} {e : Dirent} (he : Named e)
    (hnone : findText (encode before) e.name = none) :
    eraseEntry (encode (before ++ e :: after)) e.name = some (encode (before ++ after)) := by
  have hfind : findText (encode (before ++ e :: after)) e.name = _ := findText_behind he.2.2.1
  have hbuf : encode (before ++ e :: after) = encode before ++ (chunk e ++ SLASH :: encode after) := by
    rw [encode_append, encode_cons_chunk]
  rw [hnone, Option.getD_none, hbuf] at hfind
  rw [hbuf, encode_append]
  exact eraseEntry_eq hfind he.slash_notMem

-- What the removal leaves when the name is found inside an entry before its own.
theorem eraseEntry_inside {front back after : List Dirent} {d e : Dirent} {x y : Bytes}
    (hnamed : ∀ c ∈ front ++ d :: back ++ e :: after, Named c) (hchunk : chunk d = x ++ y)
    (hfound : findText (encode (front ++ d :: back)) e.name = some ((encode front).length + x.length)) :
    eraseEntry (encode (front ++ d :: back ++ e :: after)) e.name =
      some (encode front ++ x ++ encode (back ++ e :: after)) := by
  have hslash : SLASH ∉ y := fun hy => (hnamed d (by simp)).slash_notMem (hchunk ▸ List.mem_append_right x hy)
  have hbuf : encode (front ++ d :: back ++ e :: after) =
      encode front ++ x ++ (y ++ SLASH :: encode (back ++ e :: after)) := by
    rw [List.append_assoc, List.cons_append, encode_split hchunk]
  have hfind : findText (encode (front ++ d :: back ++ e :: after)) e.name = some (encode front ++ x).length := by
    rw [findText_behind (hnamed e (by simp)).2.2.1, hfound, List.length_append]
    rfl
  rw [hbuf] at hfind ⊢
  exact eraseEntry_eq hfind hslash

-- That is the right text only in one case.
theorem encode_inside_iff {front back after : List Dirent} {d e : Dirent} {x y : Bytes}
    (hnamed : ∀ c ∈ front ++ d :: back ++ e :: after, Named c)
    (hdistinct : ((front ++ d :: back ++ e :: after).map Dirent.name).Nodup) (hchunk : chunk d = x ++ y) :
    encode front ++ x ++ encode (back ++ e :: after) = encode (front ++ d :: back ++ after) ↔
      back = [] ∧ d = ⟨x ++ e.name, e.inum⟩ := by
  have hsplit : encode (front ++ d :: back ++ after) =
      encode front ++ x ++ (y ++ SLASH :: (encode back ++ encode after)) := by
    rw [List.append_assoc, List.cons_append, encode_split hchunk, encode_append]
  have hy : SLASH ∉ y := fun hy => (hnamed d (by simp)).slash_notMem (hchunk ▸ List.mem_append_right x hy)
  rw [hsplit, List.append_right_inj, encode_append, encode_cons_chunk]
  constructor
  · intro heq
    have hshift : encode back ++ (chunk e ++ [SLASH]) = y ++ SLASH :: encode back := by
      have h : encode back ++ (chunk e ++ [SLASH]) ++ encode after = y ++ SLASH :: encode back ++ encode after := by
        simpa using heq
      exact List.append_cancel_right h
    -- chunk by chunk, the entries behind d move up by one
    have hchunks : back.map chunk ++ [chunk e] = y :: back.map chunk := by
      refine terminated_inj (s := SLASH) ?_ ?_ ?_
      · intro z hz
        rcases List.mem_append.mp hz with hz | hz
        · obtain ⟨c, hc, rfl⟩ := List.mem_map.mp hz
          exact (hnamed c (by simp [hc])).slash_notMem
        · rw [List.mem_singleton.mp hz]
          exact (hnamed e (by simp)).slash_notMem
      · intro z hz
        rcases List.mem_cons.mp hz with rfl | hz
        · exact hy
        · obtain ⟨c, hc, rfl⟩ := List.mem_map.mp hz
          exact (hnamed c (by simp [hc])).slash_notMem
      · rw [List.flatMap_append, List.flatMap_cons (x := y), ← encode_eq_chunks]
        simpa using hshift
    rcases List.eq_nil_or_concat' back with rfl | ⟨init, last, rfl⟩
    · have hye : chunk e = y := by simpa using hchunks
      exact ⟨rfl, (hnamed d (by simp)).chunk_suffix (hchunk.trans (by rw [hye]))⟩
    · -- the last of them would be the removed entry itself
      have hlast : chunk e = chunk last := by
        rw [List.map_append, List.map_singleton, ← List.cons_append] at hchunks
        exact List.singleton_inj.mp (List.append_inj_right' hchunks rfl)
      have hsame := (hnamed e (by simp)).chunk_suffix (x := []) hlast
      exact absurd hdistinct (by simp [hsame, List.nodup_append])
  · rintro ⟨rfl, rfl⟩
    have hye : y = chunk e := by
      have h : x ++ chunk e = x ++ y := by
        rw [← hchunk]
        simp [chunk]
      exact (List.append_right_inj x).mp h.symm
    simp [hye, encode]

variable {σ : Type} {n : Nat}

-- Exactly the entry goes when its name is not found before it, inside another one.
theorem removed_iff_removable (s : System σ n) (parent : Nat) (before after : List Dirent) (e : Dirent)
    (hcontent : s.server.dataCache parent = encode (before ++ e :: after))
    (hnamed : ∀ d ∈ before ++ e :: after, Named d)
    (hdistinct : ((before ++ e :: after).map Dirent.name).Nodup) :
    (s.removed parent e.name = some (encode (before ++ after)) ∧
        readdir (encode (before ++ after)) = some (before ++ after)) ↔ Removable before e := by
  have hread : readdir (encode (before ++ after)) = some (before ++ after) := by
    refine readdir_encode (plain_of_named fun d hd => hnamed d ?_)
    rcases List.mem_append.mp hd with hd | hd
    · exact List.mem_append_left _ hd
    · exact List.mem_append_right _ (List.mem_cons_of_mem e hd)
  have hown : Named e := hnamed e (by simp)
  rw [and_iff_left hread, System.removed, hcontent, Removable, ← findText_eq_none_iff hown]
  cases hfound : findText (encode before) e.name with
  | none => exact iff_of_true (eraseEntry_own hown hfound) (.inl rfl)
  | some p =>
      simp only [reduceCtorEq, false_or]
      constructor
      · intro heq
        -- the name starts inside the entry d
        have hlt : p < (encode before).length := by
          obtain ⟨-, hat, -⟩ := findText_eq_some.mp hfound
          by_contra hge
          rw [List.drop_eq_nil_of_le (Nat.le_of_not_lt hge)] at hat
          exact hown.1 (List.prefix_nil.mp hat)
        obtain ⟨front, d, back, x, y, rfl, hchunk, rfl⟩ := exists_chunk_of_lt hlt
        rw [eraseEntry_inside hnamed hchunk hfound, Option.some.injEq] at heq
        obtain ⟨rfl, rfl⟩ := (encode_inside_iff hnamed hdistinct hchunk).mp heq
        exact ⟨front, x, rfl, rfl⟩
      · rintro ⟨front, x, rfl, hpos⟩
        have hchunk : chunk ⟨x ++ e.name, e.inum⟩ = x ++ chunk e := by simp [chunk]
        rw [eraseEntry_inside hnamed hchunk (hfound.trans hpos), Option.some.injEq,
          encode_inside_iff hnamed hdistinct hchunk]
        exact ⟨rfl, rfl⟩

-- A server that holds a root directory.
def rootSystem (entries : List Dirent) : System Unit 1 where
  server :=
    { im := (), clients := fun _ _ => false, dataCache := Function.update (fun _ => []) 1 (encode entries),
      attrCache := fun _ => {} }
  client := fun _ => { dataCache := fun _ => none, attrCache := fun _ => none }

theorem removed_iff_removable_two :
    ((rootSystem [⟨[97, 98], 5⟩, ⟨[99], 6⟩]).removed 1 [99] = some (encode [⟨[97, 98], 5⟩]) ∧
        readdir (encode [⟨[97, 98], 5⟩]) = some [⟨[97, 98], 5⟩]) ↔ Removable [⟨[97, 98], 5⟩] ⟨[99], 6⟩ :=
  removed_iff_removable (rootSystem [⟨[97, 98], 5⟩, ⟨[99], 6⟩]) 1 [⟨[97, 98], 5⟩] [] ⟨[99], 6⟩ rfl (by decide)
    (by decide)

-- With files ba and a, the removal of a takes the end of the name ba and of its number instead.
theorem remove_inside_name :
    (∀ d ∈ ([⟨[98, 97], 5⟩, ⟨[97], 6⟩] : List Dirent), Named d) ∧
      (rootSystem [⟨[98, 97], 5⟩, ⟨[97], 6⟩]).removed 1 [97] = some (encode [⟨[98, 97], 6⟩]) ∧
        encode [⟨[98, 97], 6⟩] ≠ encode [⟨[98, 97], 5⟩] := by
  decide +kernel

end Removal

end CseLabs.ExtentService
