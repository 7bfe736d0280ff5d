import Mathlib.Data.List.Basic
import Mathlib.Data.List.Infix

/-!
# Text

The string operations a line-oriented reader is made of, on lists of characters.

* `universalNewlines`, `replace`, `strip`, `cut` : the translation of line ends on reading, replacing every
  occurrence of a text, removing what surrounds a text, cutting at the first occurrence of a character;
* `contains`, `search` : whether a text occurs, what a reader finds first;
* `lines_read` : a text of lines that hold no line end reads as those lines;
* `words` : the maximal runs without a separator, one after the other (`words_run`);
* `parseInt` : a signed decimal number (`parseInt_toDigits`).
-/

namespace Text

/-- Line ends as a text file is read: both `\r\n` and `\r` are a `\n`. -/
def universalNewlines : List Char → List Char
  | [] => []
  | '\r' :: '\n' :: cs => '\n' :: universalNewlines cs
  | '\r' :: cs => '\n' :: universalNewlines cs
  | c :: cs => c :: universalNewlines cs

/-- Every occurrence of `pat`, found from the left, becomes `rep`; `skip` characters belong to the last one found. -/
def replaceFrom (pat rep : List Char) : Nat → List Char → List Char
  | _, [] => []
  | skip + 1, _ :: cs => replaceFrom pat rep skip cs
  | 0, c :: cs =>
    if pat.isPrefixOf (c :: cs) then rep ++ replaceFrom pat rep (pat.length - 1) cs
    else c :: replaceFrom pat rep 0 cs

def replace (pat rep s : List Char) : List Char := replaceFrom pat rep 0 s

def isSpace (c : Char) : Bool :=
  9 ≤ c.toNat ∧ c.toNat ≤ 13 ∨ 28 ≤ c.toNat ∧ c.toNat ≤ 32 ∨ c.toNat = 0x85 ∨ c.toNat = 0xa0 ∨ c.toNat = 0x1680 ∨
    0x2000 ≤ c.toNat ∧ c.toNat ≤ 0x200a ∨ c.toNat = 0x2028 ∨ c.toNat = 0x2029 ∨ c.toNat = 0x202f ∨
    c.toNat = 0x205f ∨ c.toNat = 0x3000

def strip (s : List Char) : List Char := ((s.dropWhile isSpace).reverse.dropWhile isSpace).reverse

/-- What stands before the first `sep` and after it. -/
def cut (sep : Char) (s : List Char) : Option (List Char × List Char) :=
  if sep ∈ s then some (s.takeWhile (· ≠ sep), (s.dropWhile (· ≠ sep)).drop 1) else none

def contains (pat s : List Char) : Bool := s.tails.any fun t => pat.isPrefixOf t

/-- What `read` finds at the first position at which it finds anything. -/
def search {β : Type} (read : List Char → Option β) (s : List Char) : Option β := s.tails.findSome? read

/-- Whether a text starts with a minus, and what follows its sign. -/
def sign : List Char → Bool × List Char
  | '-' :: r => (true, r)
  | '+' :: r => (false, r)
  | r => (false, r)

/-- The decimal digits of Unicode stand in rows of ten, from zero to nine: the zeros. -/
def decimalZeros : List Nat :=
  [0x30, 0x660, 0x6f0, 0x7c0, 0x966, 0x9e6, 0xa66, 0xae6, 0xb66, 0xbe6, 0xc66, 0xce6, 0xd66, 0xde6, 0xe50, 0xed0,
    0xf20, 0x1040, 0x1090, 0x17e0, 0x1810, 0x1946, 0x19d0, 0x1a80, 0x1a90, 0x1b50, 0x1bb0, 0x1c40, 0x1c50, 0xa620,
    0xa8d0, 0xa900, 0xa9d0, 0xa9f0, 0xaa50, 0xabf0, 0xff10, 0x104a0, 0x10d30, 0x11066, 0x110f0, 0x11136, 0x111d0,
    0x112f0, 0x11450, 0x114d0, 0x11650, 0x116c0, 0x11730, 0x118e0, 0x11950, 0x11c50, 0x11d50, 0x11da0, 0x16a60,
    0x16ac0, 0x16b50, 0x1d7ce, 0x1d7d8, 0x1d7e2, 0x1d7ec, 0x1d7f6, 0x1e140, 0x1e2f0, 0x1e950, 0x1fbf0]

def digitValue (c : Char) : Option Nat :=
  (decimalZeros.find? fun z => z ≤ c.toNat && c.toNat < z + 10).map fun z => c.toNat - z

/-- `\d`. -/
def isDecimal (c : Char) : Bool := (digitValue c).isSome

def number (ds : List Char) : Nat := ds.foldl (fun n c => 10 * n + (digitValue c).getD 0) 0

/-- `\d+` at the beginning of a text, and what follows it. -/
def digitRun (s : List Char) : Option (List Char × List Char) :=
  if (s.takeWhile isDecimal).isEmpty then none else some (s.takeWhile isDecimal, s.dropWhile isDecimal)

/-- A decimal number with an optional sign; single underscores may stand between digits. -/
def parseInt (s : List Char) : Option Int :=
  let body := sign (strip s)
  let groups := body.2.splitOn '_'
  if groups.all fun g => !g.isEmpty && g.all Char.isDigit then
    let n : Int := Nat.ofDigitChars 10 groups.flatten 0
    some (if body.1 then -n else n)
  else none

/-! ## Line ends -/

/-- A text that nothing on the way from a file to its lines touches. -/
def OneLine (l : List Char) : Prop := '\r' ∉ l ∧ '\n' ∉ l

theorem replace_of_head {p : Char} {pat rep s : List Char} (h : p ∉ s) : replace (p :: pat) rep s = s := by
  unfold replace
  induction s with
  | nil => rfl
  | cons c s ih =>
    rw [List.mem_cons, not_or] at h
    have hne : ((p :: pat).isPrefixOf (c :: s)) = false := by simp [List.isPrefixOf, h.1]
    rw [replaceFrom, hne, if_neg Bool.false_ne_true, ih h.2]

theorem universalNewlines_append {l : List Char} (h : '\r' ∉ l) (rest : List Char) :
    universalNewlines (l ++ rest) = l ++ universalNewlines rest := by
  induction l with
  | nil => rfl
  | cons c l ih =>
    rw [List.mem_cons, not_or] at h
    rw [List.cons_append, universalNewlines, ih h.2, List.cons_append]
    · rintro _ rfl
      exact absurd rfl h.1
    · rintro rfl
      exact absurd rfl h.1

theorem universalNewlines_lines {ls : List (List Char)} (h : ∀ l ∈ ls, '\r' ∉ l) :
    universalNewlines (ls.flatMap fun l => l ++ ['\r', '\n']) = ls.flatMap fun l => l ++ ['\n'] := by
  induction ls with
  | nil => rfl
  | cons l ls ih =>
    rw [List.flatMap_cons, List.flatMap_cons, List.append_assoc, universalNewlines_append (h l List.mem_cons_self),
      List.append_assoc]
    congr 1
    change '\n' :: universalNewlines (ls.flatMap fun l => l ++ ['\r', '\n']) = _
    rw [ih fun m hm => h m (List.mem_cons_of_mem _ hm)]
    rfl

theorem splitOn_lines {ls : List (List Char)} (h : ∀ l ∈ ls, '\n' ∉ l) :
    (ls.flatMap fun l => l ++ ['\n']).splitOn '\n' = ls ++ [[]] := by
  induction ls with
  | nil => rfl
  | cons l ls ih =>
    rw [List.flatMap_cons, List.append_assoc, List.singleton_append,
      List.splitOn_append_cons_self_of_not_mem (h l List.mem_cons_self),
      ih fun m hm => h m (List.mem_cons_of_mem _ hm), List.cons_append]

/-- **Lines read back.** -/
theorem lines_read {ls : List (List Char)} (h : ∀ l ∈ ls, OneLine l) :
    (universalNewlines (ls.flatMap fun l => l ++ ['\r', '\n'])).splitOn '\n' = ls ++ [[]] := by
  rw [universalNewlines_lines fun l hl => (h l hl).1, splitOn_lines fun l hl => (h l hl).2]

/-! ## Parts of a line -/

theorem cut_append {sep : Char} {k : List Char} (h : sep ∉ k) (v : List Char) : cut sep (k ++ sep :: v) = some (k, v) := by
  have hk : ∀ c ∈ k, decide (c ≠ sep) = true := fun c hc => decide_eq_true fun he => h (he ▸ hc)
  rw [cut, if_pos (List.mem_append_right k List.mem_cons_self), List.takeWhile_append_of_pos hk,
    List.dropWhile_append_of_pos hk]
  simp

theorem dropPrefix?_eq_some {s pat r : List Char} : s.dropPrefix? pat = some r ↔ s = pat ++ r := by
  rw [List.dropPrefix?_eq_some_iff]
  constructor
  · rintro ⟨p, hs, hp⟩
    rwa [eq_of_beq hp] at hs
  · intro hs
    exact ⟨pat, hs, BEq.rfl⟩

theorem dropPrefix?_suffix {s pat r : List Char} (h : s.dropPrefix? pat = some r) : r <:+ s := by
  rw [dropPrefix?_eq_some.mp h]
  exact List.suffix_append pat r

/-- A search succeeds where the reader does, at some position. -/
theorem search_isSome {β : Type} {read : List Char → Option β} {s : List Char} :
    (search read s).isSome ↔ ∃ t, t <:+ s ∧ (read t).isSome := by
  simp only [search, List.findSome?_isSome_iff, List.mem_tails]

theorem infix_intercalate {l : List Char} {ls : List (List Char)} (h : l ∈ ls) (sep : List Char) :
    l <:+: sep.intercalate ls := by
  induction ls with
  | nil => exact absurd h List.not_mem_nil
  | cons m ls ih =>
    by_cases hls : ls = []
    · subst hls
      rw [List.mem_singleton.mp h, List.intercalate_singleton]
    · rw [List.intercalate_cons_of_ne_nil hls]
      rcases List.mem_cons.mp h with rfl | hmem
      · exact ⟨[], sep ++ sep.intercalate ls, by simp⟩
      · exact (ih hmem).trans (List.suffix_append _ _).isInfix

theorem strip_of_no_space {s : List Char} (h : ∀ c ∈ s, isSpace c = false) : strip s = s := by
  have hkeep : ∀ t : List Char, (∀ c ∈ t, isSpace c = false) → t.dropWhile isSpace = t := by
    intro t ht
    cases t with
    | nil => rfl
    | cons c t => rw [List.dropWhile_cons_of_neg (by simp [ht c List.mem_cons_self])]
  rw [strip, hkeep s h, hkeep s.reverse fun c hc => h c (List.mem_reverse.mp hc), List.reverse_reverse]

/-! ## Runs -/

section RunsOf
variable {p : Char → Bool} {c : Char} {s : List Char}

theorem takeWhile_ne_nil (h : p c = true) : (c :: s).takeWhile p ≠ [] := by
  rw [List.takeWhile_cons_of_pos h]
  exact List.cons_ne_nil _ _

theorem head_dropWhile (s : List Char) : ∀ c ∈ (s.dropWhile p).head?, p c = false := by
  intro c hc
  have hnot := List.head?_dropWhile_not p s
  rw [Option.mem_def.mp hc] at hnot
  simpa using hnot

end RunsOf

/-! ## Words -/

/-- The maximal runs of characters that are no separator. -/
def words (sep : Char → Bool) (s : List Char) : List (List Char) := (s.splitOnP sep).filter fun w => !w.isEmpty

section Words
variable {sep : Char → Bool} {c : Char} {s w rest : List Char}

@[simp] theorem words_nil : words sep [] = [] := rfl

theorem words_cons_sep (h : sep c = true) : words sep (c :: s) = words sep s := by
  rw [words, List.splitOnP_cons_eq_if_modifyHead, if_pos h, List.filter_cons_of_neg (by simp), words]

theorem words_dropWhile : words sep (s.dropWhile sep) = words sep s := by
  induction s with
  | nil => rfl
  | cons c s ih =>
    by_cases h : sep c = true
    · rw [List.dropWhile_cons_of_pos h, ih, words_cons_sep h]
    · rw [List.dropWhile_cons_of_neg h]

/-- A run that a separator or the end of the text follows is one word. -/
theorem words_run (hw : ∀ c ∈ w, sep c = false) (hne : w ≠ []) (hrest : ∀ c ∈ rest.head?, sep c = true) :
    words sep (w ++ rest) = w :: words sep rest := by
  have hkeep : ∀ l : List (List Char), (w :: l).filter (fun w => !w.isEmpty) = w :: l.filter fun w => !w.isEmpty :=
    fun l => List.filter_cons_of_pos (by simpa using hne)
  cases rest with
  | nil =>
    rw [List.append_nil, words, List.splitOnP_eq_singleton hw, hkeep]
    rfl
  | cons c rest =>
    have hc := hrest c rfl
    rw [words_cons_sep hc, words, List.splitOnP_append_cons_of_forall_mem hw c hc, hkeep, words]

theorem words_takeWhile (hc : sep c = false) : words sep (c :: s) =
    (c :: s).takeWhile (fun c => !sep c) :: words sep ((c :: s).dropWhile fun c => !sep c) := by
  have hstart : (c :: s).takeWhile (fun c => !sep c) ≠ [] := takeWhile_ne_nil (by simp [hc])
  have hrun : ∀ d ∈ (c :: s).takeWhile (fun c => !sep c), sep d = false := by
    intro d hd
    simpa using List.all_eq_true.mp List.all_takeWhile d hd
  have hbehind : ∀ d ∈ ((c :: s).dropWhile fun c => !sep c).head?, sep d = true :=
    fun d hd => by simpa using head_dropWhile _ d hd
  have hsplit := words_run hrun hstart hbehind
  rwa [List.takeWhile_append_dropWhile] at hsplit

theorem length_behind_word (sep : Char → Bool) (c : Char) (s : List Char) :
    (((c :: s).dropWhile sep).dropWhile fun c => !sep c).length < (c :: s).length := by
  have hle : ∀ (p : Char → Bool) (l : List Char), (l.dropWhile p).length ≤ l.length :=
    fun p l => (List.dropWhile_sublist p).length_le
  rw [List.length_cons, Nat.lt_succ_iff]
  by_cases hc : sep c = true
  · rw [List.dropWhile_cons_of_pos hc]
    exact Nat.le_trans (hle _ _) (hle sep s)
  · rw [List.dropWhile_cons_of_neg hc, List.dropWhile_cons_of_pos (by simpa using hc)]
    exact hle _ s

end Words

/-- Every text is a row of pieces without `sep`, set apart by it. -/
theorem exists_pieces (sep : Char) (s : List Char) :
    ∃ gs : List (List Char), gs ≠ [] ∧ (∀ g ∈ gs, sep ∉ g) ∧ s = [sep].intercalate gs := by
  induction s with
  | nil => exact ⟨[[]], by simp, by simp, rfl⟩
  | cons c s ih =>
    obtain ⟨gs, hne, hgs, rfl⟩ := ih
    by_cases hc : c = sep
    · refine ⟨[] :: gs, List.cons_ne_nil _ _, ?_, ?_⟩
      · intro g hg
        rcases List.mem_cons.mp hg with rfl | hg
        · exact List.not_mem_nil
        · exact hgs g hg
      · rw [List.intercalate_cons_of_ne_nil hne, hc]
        rfl
    · cases gs with
      | nil => exact absurd rfl hne
      | cons g gs =>
        refine ⟨(c :: g) :: gs, List.cons_ne_nil _ _, ?_, ?_⟩
        · intro l hl
          rcases List.mem_cons.mp hl with rfl | hl
          · rw [List.mem_cons, not_or]
            exact ⟨fun he => hc he.symm, hgs g List.mem_cons_self⟩
          · exact hgs l (List.mem_cons_of_mem _ hl)
        · cases gs with
          | nil => rfl
          | cons h gs =>
            rw [List.intercalate_cons_cons, List.intercalate_cons_cons]
            rfl

/-! ## Numbers -/

theorem digitRun_eq_some {s d r : List Char} : digitRun s = some (d, r) ↔
    d ≠ [] ∧ (∀ c ∈ d, isDecimal c = true) ∧ s = d ++ r ∧ ∀ c ∈ r.head?, isDecimal c = false := by
  rw [digitRun]
  constructor
  · intro h
    split at h
    · cases h
    · rename_i hne
      rw [Option.some.injEq, Prod.mk.injEq] at h
      obtain ⟨rfl, rfl⟩ := h
      exact ⟨by simpa using hne, List.all_eq_true.mp List.all_takeWhile, List.takeWhile_append_dropWhile.symm,
        head_dropWhile s⟩
  · rintro ⟨hne, hd, rfl, hr⟩
    have htake : r.takeWhile isDecimal = [] := by
      cases r with
      | nil => rfl
      | cons c r => exact List.takeWhile_cons_of_neg (by simp [hr c rfl])
    have hdrop : r.dropWhile isDecimal = r := by
      cases r with
      | nil => rfl
      | cons c r => exact List.dropWhile_cons_of_neg (by simp [hr c rfl])
    rw [List.takeWhile_append_of_pos hd, List.dropWhile_append_of_pos hd, htake, hdrop, List.append_nil,
      if_neg (by simpa using hne)]

theorem digitRun_suffix {s d r : List Char} (h : digitRun s = some (d, r)) : r <:+ s := by
  obtain ⟨-, -, rfl, -⟩ := digitRun_eq_some.mp h
  exact List.suffix_append d r

theorem digitRun_isSome {s : List Char} : (digitRun s).isSome ↔ ∃ c ∈ s.head?, isDecimal c = true := by
  rw [digitRun]
  cases s with
  | nil => simp
  | cons c s =>
    by_cases hc : isDecimal c = true
    · simp [hc]
    · simp [hc]

theorem isDigit_toDigits {n : Nat} {c : Char} (h : c ∈ Nat.toDigits 10 n) : c.isDigit = true :=
  Nat.isDigit_of_mem_toDigits (by decide) (by decide) h

theorem digit_ne {c d : Char} (hc : c.isDigit = true) (hd : d.isDigit = false) : c ≠ d := by
  rintro rfl
  rw [hc] at hd
  cases hd

theorem isSpace_digit {c : Char} (h : c.isDigit = true) : isSpace c = false := by
  rw [Char.isDigit, Bool.and_eq_true, decide_eq_true_eq, decide_eq_true_eq] at h
  have hlo : 48 ≤ c.toNat := h.1
  have hhi : c.toNat ≤ 57 := h.2
  exact decide_eq_false (by omega)

/-- **A number written in decimal reads back.** -/
theorem parseInt_toDigits (n : Nat) : parseInt (Nat.toDigits 10 n) = some (n : Int) := by
  have hdig : ∀ c ∈ Nat.toDigits 10 n, c.isDigit = true := fun c hc => isDigit_toDigits hc
  have hstrip : strip (Nat.toDigits 10 n) = Nat.toDigits 10 n :=
    strip_of_no_space fun c hc => isSpace_digit (hdig c hc)
  have hsign : sign (Nat.toDigits 10 n) = (false, Nat.toDigits 10 n) := by
    cases hl : Nat.toDigits 10 n with
    | nil => rfl
    | cons c cs =>
      have hc := hdig c (by rw [hl]; exact List.mem_cons_self)
      rw [sign]
      · exact fun r he => absurd (List.cons.inj he).1 (digit_ne hc rfl)
      · exact fun r he => absurd (List.cons.inj he).1 (digit_ne hc rfl)
  have hgroups : (Nat.toDigits 10 n).splitOn '_' = [Nat.toDigits 10 n] :=
    List.splitOn_eq_singleton fun hm => absurd rfl (digit_ne (hdig _ hm) rfl)
  have hall : (Nat.toDigits 10 n).all Char.isDigit = true := List.all_eq_true.mpr hdig
  simp only [parseInt, hstrip, hsign, hgroups, List.all_cons, List.all_nil, hall, List.isEmpty_eq_false_iff.mpr
    Nat.toDigits_ne_nil, List.flatten_cons, List.flatten_nil, List.append_nil, Nat.ofDigitChars_ten_toDigits]
  rfl

end Text
