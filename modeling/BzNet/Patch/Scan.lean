import BzNet.Wire
import BzNet.Lib.Marker

/-!
# The version gate

The patch threads write to fixed addresses of one build of the game, so they first make sure that it is this build: its
code holds a signature exactly once.

* `findSection` : a section of the main module by its name;
* `govSigMatches` : the scan for the signature, which stops at the second match, and `versionConfirmed` : the gate;
* `versionConfirmed_iff` : the gate is open exactly when the signature stands at one position of `.text`.
-/

namespace BzNet

/-! ## The main module -/

/-- A section header of the main module, with the `VirtualSize` bytes mapped at its address. -/
structure PeSection where
  name : List U8
  body : List U8

structure PeImage where
  dosMagic : U16
  ntSignature : U32
  sections : List PeSection

/-- `strncmp(a, b, 8) == 0` -/
def sameName (a b : List U8) : Bool := (a.takeWhile (· ≠ 0)).take 8 = (b.takeWhile (· ≠ 0)).take 8

/-- `FindSection`: the section as it stands in memory. -/
def findSection (main : Option PeImage) (want : List U8) : Option (List U8) :=
  match main with
  | none => none
  | some image =>
    if image.dosMagic ≠ 0x5a4d#16 then none
    else if image.ntSignature ≠ 0x4550#32 then none
    else (image.sections.find? fun sec => sameName (sec.name.take 8) want).map PeSection.body

def textName : List U8 := [0x2e, 0x74, 0x65, 0x78, 0x74]

/-! ## The scan -/

/-- `push 4000; push 1000; push -3000` -/
def kGovSig : List U8 := [0x68, 0xa0, 0x0f, 0x00, 0x00, 0x68, 0xe8, 0x03, 0x00, 0x00, 0x68, 0x48, 0xf4, 0xff, 0xff]

/-- The scan from one position on, with the matches so far. -/
def govSigFrom : List U8 → Nat → Nat
  | [], found => found
  | b :: rest, found =>
    if kGovSig.length ≤ (b :: rest).length then
      if (b :: rest).take kGovSig.length = kGovSig then
        if 1 < found + 1 then found + 1 else govSigFrom rest (found + 1)
      else govSigFrom rest found
    else found

def govSigMatches (text : List U8) : Nat := govSigFrom text 0

/-- The build is the one whose addresses the patch threads know. -/
def versionConfirmed (main : Option PeImage) : Bool :=
  match findSection main textName with
  | none => false
  | some text => govSigMatches text = 1

/-! ## What it finds -/

theorem take_length_eq_iff {pat l : List U8} : l.take pat.length = pat ↔ pat <+: l :=
  ⟨fun h => List.prefix_iff_eq_take.mpr h.symm, fun h => (List.prefix_iff_eq_take.mp h).symm⟩

theorem govSigFrom_eq (l : List U8) {found : Nat} (hm : found ≤ 1) :
    govSigFrom l found = min 2 (found + (Marker.hits kGovSig l).length) := by
  induction l generalizing found with
  | nil =>
    show found = min 2 (found + 0)
    omega
  | cons b rest ih =>
    rw [govSigFrom]
    by_cases hlen : kGovSig.length ≤ (b :: rest).length
    · rw [if_pos hlen, Marker.hits_cons, List.length_append, List.length_map]
      by_cases hocc : (b :: rest).take kGovSig.length = kGovSig
      · rw [if_pos hocc, if_pos (take_length_eq_iff.mp hocc), List.length_singleton]
        by_cases hsecond : 1 < found + 1
        · rw [if_pos hsecond]
          omega
        · rw [if_neg hsecond, ih (by omega)]
          omega
      · rw [if_neg hocc, if_neg fun h => hocc (take_length_eq_iff.mpr h), ih hm, List.length_nil, Nat.zero_add]
    · rw [if_neg hlen, Marker.hits_short (Nat.lt_of_not_le hlen), List.length_nil]
      omega

/-- The matches counted are the occurrences, up to two. -/
theorem govSigMatches_eq (text : List U8) : govSigMatches text = min 2 (Marker.hits kGovSig text).length := by
  rw [govSigMatches, govSigFrom_eq text (Nat.zero_le 1), Nat.zero_add]

/-- **The gate is open** exactly when the code has the signature at one position. -/
theorem versionConfirmed_iff (main : Option PeImage) :
    versionConfirmed main = true ↔ ∃ text, findSection main textName = some text ∧ ∃! i, Marker.Occurs kGovSig text i := by
  rw [versionConfirmed]
  cases hfound : findSection main textName with
  | none => simp
  | some text =>
    simp only [decide_eq_true_eq, Option.some.injEq, exists_eq_left']
    rw [← Marker.hits_one_iff (by decide : kGovSig ≠ []) text, govSigMatches_eq]
    omega

end BzNet
