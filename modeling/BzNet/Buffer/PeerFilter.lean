import BzNet.Buffer.Core
import BzNet.Lib.Text

/-!
# The peer filter

`shared/buffer_filter.h`: the list of addresses that `BZ_BUFFER_LOG_PEER` asks for.

* `arrayWrite`, `arrayRead` : accesses to the fixed arrays, which end in a fault past their end;
* `peerFilterScan`, `peerFilterParseIpv4` : the scanner of one address, whose end counts as a dot;
* `peerFilterTokens`, `peerFilterParse`, `peerFilterSearch` : the list, and looking an address up;
* `IsOctet`, `DottedQuad` : what an address is;
* `peerFilterScan_pieces` : the scanner goes through the pieces between the dots;
* `peer_filter_grammar` : exactly the addresses are accepted, everything listed is counted, and no access faults.

A text is a list of characters. It is shorter than the address space, so neither counter wraps; and no more than three
digits are added up in a row.
-/

namespace BzNet

/-! ## The fixed arrays -/

/-- An index outside its array. -/
inductive ArrayFault where
  | outOfBounds

/-- `a[i] = v` in an array of `n` words. -/
def arrayWrite (n : Nat) (a : Nat → U32) (i : Nat) (v : U32) : Except ArrayFault (Nat → U32) :=
  if i < n then .ok (Function.update a i v) else .error .outOfBounds

def arrayRead (n : Nat) (a : Nat → U32) (i : Nat) : Except ArrayFault U32 :=
  if i < n then .ok (a i) else .error .outOfBounds

theorem arrayWrite_ok {n : Nat} {a : Nat → U32} {i : Nat} {v : U32} (h : i < n) :
    arrayWrite n a i v = .ok (Function.update a i v) := if_pos h

theorem arrayRead_ok {n : Nat} {a : Nat → U32} {i : Nat} (h : i < n) : arrayRead n a i = .ok (a i) := if_pos h

/-! ## One address -/

/-- The scanner's variables. -/
structure Ipv4Scan where
  parts : Nat → U32
  pi : Nat
  digits : Nat
  acc : Nat

/-- A dot, or the end: the number before it becomes a part. `none` rejects the token. -/
def Ipv4Scan.close (a : Ipv4Scan) : Except ArrayFault (Option Ipv4Scan) :=
  if a.digits = 0 ∨ a.acc > 255 ∨ a.pi > 3 then .ok none
  else (arrayWrite 4 a.parts a.pi (BitVec.ofNat 32 a.acc)).map fun parts => some ⟨parts, a.pi + 1, 0, 0⟩

def peerFilterScan : List Char → Ipv4Scan → Except ArrayFault (Option Ipv4Scan)
  | [], a => a.close
  | c :: cs, a =>
    if c.isDigit then
      if a.digits + 1 > 3 then .ok none
      else peerFilterScan cs { a with digits := a.digits + 1, acc := 10 * a.acc + (c.toNat - '0'.toNat) }
    else if c = '.' then
      match a.close with
      | .ok (some a) => peerFilterScan cs a
      | r => r
    else .ok none

/-- `peer_filter_parse_ipv4`: the address in network order, on a machine that keeps the low byte first. -/
def peerFilterParseIpv4 (token : List Char) : Except ArrayFault (Option U32) :=
  (peerFilterScan token ⟨fun _ => 0, 0, 0, 0⟩).map fun r =>
    r.bind fun a =>
      if a.pi ≠ 4 then none
      else some (a.parts 0 ||| a.parts 1 <<< 8 ||| a.parts 2 <<< 16 ||| a.parts 3 <<< 24)

/-! ## The list -/

def peerFilterSep (c : Char) : Bool := c = ',' ∨ c = ' ' ∨ c = '\t'

/-- The filter, and how many entries of the list it does not match against. -/
structure PeerFilterList where
  filter : PeerFilter
  rejected : Nat

def peerFilterInit : PeerFilterList := ⟨⟨0, fun _ => 0, Nat.zero_le _⟩, 0⟩

def peerFilterToken (f : PeerFilterList) (token : List Char) : Except ArrayFault PeerFilterList :=
  match peerFilterParseIpv4 token with
  | .error e => .error e
  | .ok none => .ok { f with rejected := f.rejected + 1 }
  | .ok (some addr) =>
    if h : f.filter.count < kPeerFilterCap then
      (arrayWrite kPeerFilterCap f.filter.ipv4 f.filter.count addr).map fun ipv4 =>
        { f with filter := ⟨f.filter.count + 1, ipv4, h⟩ }
    else .ok { f with rejected := f.rejected + 1 }

/-- The loop over the list: skip what separates, take what does not. -/
def peerFilterTokens (f : PeerFilterList) : List Char → Except ArrayFault PeerFilterList
  | [] => .ok f
  | c :: cs =>
    let start := (c :: cs).dropWhile peerFilterSep
    let token := start.takeWhile fun c => !peerFilterSep c
    let p := start.dropWhile fun c => !peerFilterSep c
    if token = [] then peerFilterTokens f p
    else
      match peerFilterToken f token with
      | .error e => .error e
      | .ok f => peerFilterTokens f p
termination_by p => p.length
decreasing_by
  · exact Text.length_behind_word peerFilterSep c cs
  · exact Text.length_behind_word peerFilterSep c cs

/-- `peer_filter_parse`; an unset variable is a null list. -/
def peerFilterParse : Option String → Except ArrayFault PeerFilterList
  | none => .ok peerFilterInit
  | some spec => if spec = "" then .ok peerFilterInit else peerFilterTokens peerFilterInit spec.toList

/-- The loop of `peer_filter_accepts`. -/
def peerFilterSearch (f : PeerFilter) (ipv4NetOrder : U32) : List Nat → Except ArrayFault Bool
  | [] => .ok false
  | i :: is =>
    match arrayRead kPeerFilterCap f.ipv4 i with
    | .error e => .error e
    | .ok a => if a = ipv4NetOrder then .ok true else peerFilterSearch f ipv4NetOrder is

/-- `peer_filter_accepts`, with its accesses checked. -/
def peerFilterAcceptsChecked (f : PeerFilter) (ipv4NetOrder : U32) : Except ArrayFault Bool :=
  if f.count = 0 ∨ ipv4NetOrder = 0 then .ok true
  else peerFilterSearch f ipv4NetOrder (List.range f.count)

/-! ## What an address is -/

/-- One to three decimal digits that make 255 at most. -/
def IsOctet (g : List Char) : Prop :=
  0 < g.length ∧ g.length ≤ 3 ∧ (∀ c ∈ g, c.isDigit = true) ∧ Nat.ofDigitChars 10 g 0 ≤ 255

instance (g : List Char) : Decidable (IsOctet g) := inferInstanceAs (Decidable (_ ∧ _))

/-- Four octets with single dots between them; the first one is the lowest byte of the word. -/
def DottedQuad (token : List Char) (w : U32) : Prop :=
  ∃ a b c d, IsOctet a ∧ IsOctet b ∧ IsOctet c ∧ IsOctet d ∧ token = a ++ '.' :: b ++ '.' :: c ++ '.' :: d ∧
    w.toNat = Nat.ofDigitChars 10 a 0 + Nat.ofDigitChars 10 b 0 * 2 ^ 8 + Nat.ofDigitChars 10 c 0 * 2 ^ 16 +
      Nat.ofDigitChars 10 d 0 * 2 ^ 24

/-! ## The scanner, piece by piece -/

theorem Ipv4Scan.close_eq (a : Ipv4Scan) : a.close = .ok
    (if 0 < a.digits ∧ a.acc ≤ 255 ∧ a.pi ≤ 3 then
      some ⟨Function.update a.parts a.pi (BitVec.ofNat 32 a.acc), a.pi + 1, 0, 0⟩
    else none) := by
  unfold Ipv4Scan.close
  by_cases h : 0 < a.digits ∧ a.acc ≤ 255 ∧ a.pi ≤ 3
  · rw [if_neg (by omega), if_pos h, arrayWrite_ok (by omega)]
    rfl
  · rw [if_pos (by omega), if_neg h]

/-- Digits are added up, as long as there are three at most. -/
theorem peerFilterScan_digits {g : List Char} (hg : ∀ c ∈ g, c.isDigit = true) (rest : List Char) (a : Ipv4Scan)
    (ha : a.digits ≤ 3) : peerFilterScan (g ++ rest) a =
      if a.digits + g.length ≤ 3 then
        peerFilterScan rest { a with digits := a.digits + g.length, acc := Nat.ofDigitChars 10 g a.acc }
      else .ok none := by
  induction g generalizing a with
  | nil =>
    rw [List.length_nil, Nat.add_zero, if_pos ha]
    rfl
  | cons c g ih =>
    rw [List.cons_append, peerFilterScan, if_pos (hg c List.mem_cons_self), List.length_cons]
    by_cases hd : a.digits + 1 > 3
    · rw [if_pos hd, if_neg (by omega)]
    · rw [if_neg hd, ih (fun d hd => hg d (List.mem_cons_of_mem _ hd)) _ (by simpa using hd)]
      have hlen : a.digits + 1 + g.length = a.digits + (g.length + 1) := by omega
      simp only [hlen, Nat.ofDigitChars_cons]

theorem peerFilterScan_other {c : Char} (hc : c.isDigit = false) (hdot : c ≠ '.') (cs : List Char) (a : Ipv4Scan) :
    peerFilterScan (c :: cs) a = .ok none := by
  rw [peerFilterScan, if_neg (by simp [hc]), if_neg hdot]

/-- What a piece makes of the variables. -/
def closePiece (g : List Char) (parts : Nat → U32) (k : Nat) : Option Ipv4Scan :=
  if IsOctet g ∧ k ≤ 3 then
    some ⟨Function.update parts k (BitVec.ofNat 32 (Nat.ofDigitChars 10 g 0)), k + 1, 0, 0⟩
  else none

/-- A piece of digits, up to where it is closed. -/
theorem peerFilterScan_number {g : List Char} (hg : ∀ c ∈ g, c.isDigit = true) (rest : List Char) (parts : Nat → U32)
    (k : Nat) : peerFilterScan (g ++ rest) ⟨parts, k, 0, 0⟩ =
      if g.length ≤ 3 then peerFilterScan rest ⟨parts, k, g.length, Nat.ofDigitChars 10 g 0⟩ else .ok none := by
  rw [peerFilterScan_digits hg rest _ (Nat.zero_le 3)]
  simp only [Nat.zero_add]

theorem close_number {g : List Char} (hg : ∀ c ∈ g, c.isDigit = true) (hlen : g.length ≤ 3) (parts : Nat → U32)
    (k : Nat) : Ipv4Scan.close ⟨parts, k, g.length, Nat.ofDigitChars 10 g 0⟩ = .ok (closePiece g parts k) := by
  rw [Ipv4Scan.close_eq, closePiece]
  by_cases h : IsOctet g ∧ k ≤ 3
  · rw [if_pos h, if_pos ⟨h.1.1, h.1.2.2.2, h.2⟩]
  · rw [if_neg h, if_neg fun hn => h ⟨⟨hn.1, hlen, hg, hn.2.1⟩, hn.2.2⟩]

theorem exists_not_digit {g : List Char} (h : ¬ ∀ c ∈ g, c.isDigit = true) :
    ∃ d c r, g = d ++ c :: r ∧ (∀ e ∈ d, e.isDigit = true) ∧ c.isDigit = false := by
  induction g with
  | nil => exact absurd (fun c hc => absurd hc List.not_mem_nil) h
  | cons c g ih =>
    cases hc : c.isDigit with
    | false => exact ⟨[], c, g, rfl, fun e he => absurd he List.not_mem_nil, hc⟩
    | true =>
      obtain ⟨d, c', r, rfl, hd, hc'⟩ := ih fun hall => h fun e he => by
        rcases List.mem_cons.mp he with rfl | he
        · exact hc
        · exact hall e he
      refine ⟨c :: d, c', r, rfl, fun e he => ?_, hc'⟩
      rcases List.mem_cons.mp he with rfl | he
      · exact hc
      · exact hd e he

/-- A piece with anything else in it is rejected, and never accepted as an octet. -/
theorem peerFilterScan_junk {g : List Char} (hdot : '.' ∉ g) (hg : ¬ ∀ c ∈ g, c.isDigit = true) (rest : List Char)
    (parts : Nat → U32) (k : Nat) :
    peerFilterScan (g ++ rest) ⟨parts, k, 0, 0⟩ = .ok none ∧ closePiece g parts k = none := by
  refine ⟨?_, if_neg fun h => hg h.1.2.2.1⟩
  obtain ⟨d, c, r, rfl, hd, hc⟩ := exists_not_digit hg
  have hne : c ≠ '.' := by
    rintro rfl
    exact hdot (List.mem_append_right d List.mem_cons_self)
  rw [List.append_assoc, peerFilterScan_number hd, List.cons_append, peerFilterScan_other hc hne]
  split <;> rfl

theorem peerFilterScan_last {g : List Char} (hdot : '.' ∉ g) (parts : Nat → U32) (k : Nat) :
    peerFilterScan g ⟨parts, k, 0, 0⟩ = .ok (closePiece g parts k) := by
  by_cases hg : ∀ c ∈ g, c.isDigit = true
  · have hscan := peerFilterScan_number hg [] parts k
    rw [List.append_nil] at hscan
    rw [hscan]
    by_cases hlen : g.length ≤ 3
    · rw [if_pos hlen, peerFilterScan, close_number hg hlen]
    · rw [if_neg hlen, closePiece, if_neg fun h => hlen h.1.2.1]
  · have hjunk := peerFilterScan_junk hdot hg [] parts k
    rw [List.append_nil] at hjunk
    rw [hjunk.1, hjunk.2]

theorem peerFilterScan_piece {g : List Char} (hdot : '.' ∉ g) (rest : List Char) (parts : Nat → U32) (k : Nat) :
    peerFilterScan (g ++ '.' :: rest) ⟨parts, k, 0, 0⟩ =
      match closePiece g parts k with
      | some a => peerFilterScan rest a
      | none => .ok none := by
  by_cases hg : ∀ c ∈ g, c.isDigit = true
  · rw [peerFilterScan_number hg]
    by_cases hlen : g.length ≤ 3
    · rw [if_pos hlen, peerFilterScan, if_neg (by decide), if_pos rfl, close_number hg hlen]
      cases closePiece g parts k <;> rfl
    · rw [if_neg hlen, closePiece, if_neg fun h => hlen h.1.2.1]
  · obtain ⟨hscan, hclose⟩ := peerFilterScan_junk hdot hg ('.' :: rest) parts k
    rw [hscan, hclose]

/-- The parts after the pieces `gs`. -/
def closePieces : List (List Char) → (Nat → U32) → Nat → Option Ipv4Scan
  | [], parts, k => some ⟨parts, k, 0, 0⟩
  | g :: gs, parts, k => (closePiece g parts k).bind fun a => closePieces gs a.parts a.pi

theorem peerFilterScan_pieces {gs : List (List Char)} (hne : gs ≠ []) (hdots : ∀ g ∈ gs, '.' ∉ g) (parts : Nat → U32)
    (k : Nat) : peerFilterScan (['.'].intercalate gs) ⟨parts, k, 0, 0⟩ = .ok (closePieces gs parts k) := by
  have hfresh : ∀ {g parts k a}, closePiece g parts k = some a → a = ⟨a.parts, a.pi, 0, 0⟩ := by
    intro g parts k a h
    unfold closePiece at h
    split at h
    · cases h
      rfl
    · cases h
  induction gs generalizing parts k with
  | nil => exact absurd rfl hne
  | cons g gs ih =>
    have hg := hdots g List.mem_cons_self
    cases gs with
    | nil =>
      rw [List.intercalate_singleton, peerFilterScan_last hg, closePieces]
      cases hc : closePiece g parts k with
      | none => rfl
      | some a => exact congrArg (fun a => Except.ok (some a)) (hfresh hc)
    | cons g' gs =>
      have hrest : ['.'].intercalate (g :: g' :: gs) = g ++ '.' :: ['.'].intercalate (g' :: gs) := by
        rw [List.intercalate_cons_cons, List.append_assoc, List.singleton_append]
      rw [hrest, peerFilterScan_piece hg, closePieces]
      cases hc : closePiece g parts k with
      | none => rfl
      | some a =>
        rw [hfresh hc]
        exact ih (List.cons_ne_nil _ _) (fun l hl => hdots l (List.mem_cons_of_mem _ hl)) a.parts a.pi

/-! ## The address of a token -/

theorem word_toNat {a b c d : Nat} (ha : a ≤ 255) (hb : b ≤ 255) (hc : c ≤ 255) (hd : d ≤ 255) :
    (BitVec.ofNat 32 a ||| BitVec.ofNat 32 b <<< 8 ||| BitVec.ofNat 32 c <<< 16 ||| BitVec.ofNat 32 d <<< 24).toNat =
      a + b * 2 ^ 8 + c * 2 ^ 16 + d * 2 ^ 24 := by
  have hshift : ∀ x i, x ≤ 255 → i ≤ 24 → (BitVec.ofNat 32 x <<< i).toNat = x <<< i := by
    intro x i hx hi
    have hpow : 2 ^ i ≤ 2 ^ 24 := Nat.pow_le_pow_right (by decide) hi
    have hlt : x * 2 ^ i < 2 ^ 32 := Nat.lt_of_le_of_lt (Nat.mul_le_mul hx hpow) (by decide)
    rw [BitVec.toNat_shiftLeft, BitVec.toNat_ofNat, Nat.mod_eq_of_lt (show x < 2 ^ 32 by omega), Nat.shiftLeft_eq,
      Nat.mod_eq_of_lt hlt]
  have hor : ∀ low x i, low < 2 ^ i → low ||| x <<< i = low + x * 2 ^ i := by
    intro low x i hlow
    rw [Nat.or_comm, ← Nat.shiftLeft_add_eq_or_of_lt hlow, Nat.shiftLeft_eq, Nat.add_comm]
  rw [BitVec.toNat_or, BitVec.toNat_or, BitVec.toNat_or, hshift b 8 hb (by decide), hshift c 16 hc (by decide),
    hshift d 24 hd (by decide), BitVec.toNat_ofNat, Nat.mod_eq_of_lt (show a < 2 ^ 32 by omega), hor a b 8 (by omega),
    hor _ c 16 (by omega), hor _ d 24 (by omega)]

def addressOfPieces (gs : List (List Char)) : Option U32 :=
  (closePieces gs (fun _ => 0) 0).bind fun a =>
    if a.pi ≠ 4 then none
    else some (a.parts 0 ||| a.parts 1 <<< 8 ||| a.parts 2 <<< 16 ||| a.parts 3 <<< 24)

theorem peerFilterParseIpv4_pieces {gs : List (List Char)} (hne : gs ≠ []) (hdots : ∀ g ∈ gs, '.' ∉ g) :
    peerFilterParseIpv4 (['.'].intercalate gs) = .ok (addressOfPieces gs) := by
  rw [peerFilterParseIpv4, peerFilterScan_pieces hne hdots]
  rfl

theorem closePieces_some {gs : List (List Char)} {parts : Nat → U32} {k : Nat} {a : Ipv4Scan}
    (h : closePieces gs parts k = some a) : (∀ g ∈ gs, IsOctet g) ∧ a.pi = k + gs.length := by
  induction gs generalizing parts k with
  | nil =>
    cases h
    exact ⟨fun g hg => absurd hg List.not_mem_nil, rfl⟩
  | cons g gs ih =>
    obtain ⟨b, hb, hrest⟩ := Option.bind_eq_some_iff.mp h
    unfold closePiece at hb
    split at hb
    · next hoctet =>
      cases hb
      have hpi : a.pi = k + 1 + gs.length := (ih hrest).2
      refine ⟨fun l hl => ?_, ?_⟩
      · rcases List.mem_cons.mp hl with rfl | hl
        · exact hoctet.1
        · exact (ih hrest).1 l hl
      · rw [hpi, List.length_cons]
        omega
    · cases hb

theorem addressOfPieces_four {a b c d : List Char} (ha : IsOctet a) (hb : IsOctet b) (hc : IsOctet c) (hd : IsOctet d) :
    ∃ w, addressOfPieces [a, b, c, d] = some w ∧
      w.toNat = Nat.ofDigitChars 10 a 0 + Nat.ofDigitChars 10 b 0 * 2 ^ 8 + Nat.ofDigitChars 10 c 0 * 2 ^ 16 +
        Nat.ofDigitChars 10 d 0 * 2 ^ 24 := by
  refine ⟨_, ?_, word_toNat ha.2.2.2 hb.2.2.2 hc.2.2.2 hd.2.2.2⟩
  simp [addressOfPieces, closePieces, closePiece, ha, hb, hc, hd]

theorem addressOfPieces_iff {gs : List (List Char)} {w : U32} :
    addressOfPieces gs = some w ↔ ∃ a b c d, IsOctet a ∧ IsOctet b ∧ IsOctet c ∧ IsOctet d ∧ gs = [a, b, c, d] ∧
      w.toNat = Nat.ofDigitChars 10 a 0 + Nat.ofDigitChars 10 b 0 * 2 ^ 8 + Nat.ofDigitChars 10 c 0 * 2 ^ 16 +
        Nat.ofDigitChars 10 d 0 * 2 ^ 24 := by
  constructor
  · intro h
    obtain ⟨a, hclose, hword⟩ := Option.bind_eq_some_iff.mp h
    obtain ⟨hall, hpi⟩ := closePieces_some hclose
    have hfour : a.pi = 4 := by
      by_contra hne
      rw [if_pos hne] at hword
      cases hword
    obtain ⟨p, q, r, t, rfl⟩ : ∃ p q r t, gs = [p, q, r, t] := by
      rw [← List.length_eq_four]
      omega
    have hp := hall p (by simp)
    have hq := hall q (by simp)
    have hr := hall r (by simp)
    have ht := hall t (by simp)
    obtain ⟨w', hw', hval⟩ := addressOfPieces_four hp hq hr ht
    rw [hw'] at h
    cases h
    exact ⟨p, q, r, t, hp, hq, hr, ht, rfl, hval⟩
  · rintro ⟨a, b, c, d, ha, hb, hc, hd, rfl, hval⟩
    obtain ⟨w', hw', hval'⟩ := addressOfPieces_four ha hb hc hd
    rw [hw', BitVec.eq_of_toNat_eq (hval'.trans hval.symm)]

theorem IsOctet.no_dot {g : List Char} (h : IsOctet g) : '.' ∉ g := fun hdot => absurd (h.2.2.1 '.' hdot) (by decide)

theorem peerFilterParseIpv4_iff (token : List Char) :
    ∃ r, peerFilterParseIpv4 token = .ok r ∧ ∀ w, r = some w ↔ DottedQuad token w := by
  obtain ⟨gs, hne, hdots, rfl⟩ := Text.exists_pieces '.' token
  refine ⟨addressOfPieces gs, peerFilterParseIpv4_pieces hne hdots, fun w => ?_⟩
  rw [addressOfPieces_iff]
  have hquad : ∀ a b c d : List Char, ['.'].intercalate [a, b, c, d] = a ++ '.' :: b ++ '.' :: c ++ '.' :: d := by
    intro a b c d
    simp [List.intercalate_cons_cons]
  constructor
  · rintro ⟨a, b, c, d, ha, hb, hc, hd, rfl, hval⟩
    exact ⟨a, b, c, d, ha, hb, hc, hd, hquad a b c d, hval⟩
  · rintro ⟨a, b, c, d, ha, hb, hc, hd, htoken, hval⟩
    refine ⟨a, b, c, d, ha, hb, hc, hd, ?_, hval⟩
    have hsplit := congrArg (List.splitOn '.') (htoken.trans (hquad a b c d).symm)
    rw [List.splitOn_intercalate '.' hdots hne, List.splitOn_intercalate '.' ?_ (List.cons_ne_nil _ _)] at hsplit
    · exact hsplit
    · intro l hl
      simp only [List.mem_cons, List.not_mem_nil, or_false] at hl
      rcases hl with rfl | rfl | rfl | rfl
      · exact ha.no_dot
      · exact hb.no_dot
      · exact hc.no_dot
      · exact hd.no_dot

/-! ## The list, entry by entry -/

/-- The address a token stands for. -/
def peerFilterAddress (token : List Char) : Option U32 :=
  match peerFilterParseIpv4 token with
  | .ok r => r
  | .error _ => none

theorem peerFilterParseIpv4_ok (token : List Char) : peerFilterParseIpv4 token = .ok (peerFilterAddress token) := by
  obtain ⟨r, hr, -⟩ := peerFilterParseIpv4_iff token
  rw [peerFilterAddress, hr]

def PeerFilterList.add (f : PeerFilterList) (token : List Char) : PeerFilterList :=
  match peerFilterAddress token with
  | none => { f with rejected := f.rejected + 1 }
  | some addr =>
    if h : f.filter.count < kPeerFilterCap then
      { f with filter := ⟨f.filter.count + 1, Function.update f.filter.ipv4 f.filter.count addr, h⟩ }
    else { f with rejected := f.rejected + 1 }

theorem peerFilterToken_ok (f : PeerFilterList) (token : List Char) : peerFilterToken f token = .ok (f.add token) := by
  rw [peerFilterToken, peerFilterParseIpv4_ok, PeerFilterList.add]
  cases peerFilterAddress token with
  | none => rfl
  | some addr =>
    dsimp only
    split
    · next h =>
      rw [arrayWrite_ok h]
      rfl
    · rfl

/-- Past the separators there is a token and the rest, and the runs are the token's and the rest's. -/
theorem words_token (start : List Char) (hstart : ∀ c ∈ start.head?, peerFilterSep c = false) :
    Text.words peerFilterSep start =
      (if start.takeWhile (fun c => !peerFilterSep c) = [] then [] else [start.takeWhile fun c => !peerFilterSep c]) ++
        Text.words peerFilterSep (start.dropWhile fun c => !peerFilterSep c) := by
  cases start with
  | nil => rfl
  | cons d ds =>
    have hd := hstart d rfl
    have htoken : (d :: ds).takeWhile (fun c => !peerFilterSep c) ≠ [] := Text.takeWhile_ne_nil (by simp [hd])
    rw [if_neg htoken, Text.words_takeWhile hd, List.singleton_append]

/-- The loop takes the maximal runs between the separators one after the other. -/
theorem peerFilterTokens_ok (f : PeerFilterList) (p : List Char) :
    peerFilterTokens f p = .ok ((Text.words peerFilterSep p).foldl PeerFilterList.add f) := by
  have hwords : ∀ s : List Char, Text.words peerFilterSep s = _ := fun s =>
    Text.words_dropWhile.symm.trans (words_token (s.dropWhile peerFilterSep) (Text.head_dropWhile s))
  induction f, p using peerFilterTokens.induct with
  | case1 f => simp [peerFilterTokens]
  | case2 f c cs start token p htoken ih =>
    rw [peerFilterTokens, hwords, if_pos htoken, if_pos htoken]
    exact ih
  | case3 f c cs start token htoken e he =>
    rw [peerFilterToken_ok] at he
    cases he
  | case4 f c cs start token p htoken f' hf' ih =>
    rw [peerFilterToken_ok] at hf'
    obtain rfl := Except.ok.inj hf'
    rw [peerFilterTokens, hwords, if_neg htoken, if_neg htoken, peerFilterToken_ok]
    exact ih

/-! ## What the filter holds -/

/-- The addresses the filter matches against, in order. -/
def PeerFilter.stored (f : PeerFilter) : List U32 := (List.range f.count).map f.ipv4

theorem PeerFilter.length_stored (f : PeerFilter) : f.stored.length = f.count := by
  rw [PeerFilter.stored, List.length_map, List.length_range]

theorem PeerFilterList.add_spec (f : PeerFilterList) (token : List Char) :
    (f.add token).filter.count + (f.add token).rejected = f.filter.count + f.rejected + 1 ∧
      (f.add token).filter.stored = (f.filter.stored ++ (peerFilterAddress token).toList).take kPeerFilterCap := by
  have hlen := f.filter.length_stored
  have hle := f.filter.count_le
  unfold PeerFilterList.add
  cases peerFilterAddress token with
  | none =>
    refine ⟨rfl, ?_⟩
    rw [Option.toList_none, List.append_nil, List.take_of_length_le (by omega)]
  | some addr =>
    dsimp only
    by_cases hroom : f.filter.count < kPeerFilterCap
    · rw [dif_pos hroom]
      refine ⟨by dsimp only; omega, ?_⟩
      have hold : ∀ i ∈ List.range f.filter.count, Function.update f.filter.ipv4 f.filter.count addr i = f.filter.ipv4 i :=
        fun i hi => Function.update_of_ne (Nat.ne_of_lt (List.mem_range.mp hi)) _ _
      rw [List.take_of_length_le (by rw [List.length_append, hlen]; exact hroom)]
      simp only [PeerFilter.stored, List.range_succ, List.map_append, List.map_singleton, Function.update_self,
        List.map_congr_left hold, Option.toList_some]
    · rw [dif_neg hroom]
      refine ⟨rfl, ?_⟩
      rw [List.take_append_of_le_length (by omega), List.take_of_length_le (by omega)]

theorem take_append_take {α : Type} (n : Nat) (l r : List α) : (l.take n ++ r).take n = (l ++ r).take n := by
  rw [List.take_append, List.take_append, List.take_take, Nat.min_self, List.length_take]
  congr 2
  omega

theorem filterMap_address (w : List Char) (ws : List (List Char)) :
    (w :: ws).filterMap peerFilterAddress = (peerFilterAddress w).toList ++ ws.filterMap peerFilterAddress := by
  cases h : peerFilterAddress w with
  | none => rw [List.filterMap_cons_none h, Option.toList_none, List.nil_append]
  | some addr => rw [List.filterMap_cons_some h, Option.toList_some, List.singleton_append]

theorem stored_foldl (ws : List (List Char)) (f : PeerFilterList) :
    (ws.foldl PeerFilterList.add f).filter.count + (ws.foldl PeerFilterList.add f).rejected =
        f.filter.count + f.rejected + ws.length ∧
      (ws.foldl PeerFilterList.add f).filter.stored =
        (f.filter.stored ++ ws.filterMap peerFilterAddress).take kPeerFilterCap := by
  induction ws generalizing f with
  | nil =>
    refine ⟨rfl, ?_⟩
    have hlen := f.filter.length_stored
    have hle := f.filter.count_le
    rw [List.filterMap_nil, List.append_nil, List.take_of_length_le (by omega)]
    rfl
  | cons w ws ih =>
    obtain ⟨hcount, hstored⟩ := f.add_spec w
    obtain ⟨hcount', hstored'⟩ := ih (f.add w)
    rw [List.foldl_cons]
    refine ⟨?_, ?_⟩
    · rw [hcount', hcount, List.length_cons]
      omega
    · rw [hstored', hstored, take_append_take, filterMap_address, List.append_assoc]

/-! ## Whether an address is kept -/

theorem peerFilterSearch_ok (f : PeerFilter) (ip : U32) {is : List Nat} (his : ∀ i ∈ is, i < kPeerFilterCap) :
    peerFilterSearch f ip is = .ok (is.any fun i => f.ipv4 i == ip) := by
  induction is with
  | nil => rfl
  | cons i is ih =>
    rw [peerFilterSearch, arrayRead_ok (his i List.mem_cons_self)]
    dsimp only
    by_cases hi : f.ipv4 i = ip
    · rw [if_pos hi, List.any_cons, beq_iff_eq.mpr hi, Bool.true_or]
    · rw [if_neg hi, ih fun j hj => his j (List.mem_cons_of_mem _ hj), List.any_cons, beq_eq_false_iff_ne.mpr hi,
        Bool.false_or]

theorem peerFilterAcceptsChecked_ok (f : PeerFilter) (ip : U32) :
    peerFilterAcceptsChecked f ip = .ok (peerFilterAccepts f ip) := by
  unfold peerFilterAcceptsChecked
  by_cases h : f.count = 0 ∨ ip = 0
  · have hkeep : (f.count == 0 || ip == 0) = true := by simpa using h
    rw [if_pos h, peerFilterAccepts, hkeep, Bool.true_or]
  · have hlook : (f.count == 0 || ip == 0) = false := by simpa using h
    rw [if_neg h, peerFilterAccepts, hlook, Bool.false_or, peerFilterSearch_ok f ip]
    intro i hi
    exact Nat.lt_of_lt_of_le (List.mem_range.mp hi) f.count_le

theorem peerFilterAccepts_iff (f : PeerFilter) (ip : U32) :
    peerFilterAccepts f ip = true ↔ ip = 0 ∨ f.count = 0 ∨ ip ∈ f.stored := by
  have hany : ((List.range f.count).any fun i => f.ipv4 i == ip) = true ↔ ip ∈ f.stored := by
    simp only [List.any_eq_true, beq_iff_eq, PeerFilter.stored, List.mem_map]
  rw [peerFilterAccepts, Bool.or_eq_true, Bool.or_eq_true, hany, beq_iff_eq, beq_iff_eq]
  tauto

theorem peerFilterParse_ok (spec : Option String) : peerFilterParse spec =
    .ok ((Text.words peerFilterSep (spec.getD "").toList).foldl PeerFilterList.add peerFilterInit) := by
  cases spec with
  | none => rfl
  | some spec =>
    rw [peerFilterParse, Option.getD_some]
    split
    · next h =>
      rw [h]
      rfl
    · exact peerFilterTokens_ok _ _

/-- **The peer filter accepts exactly its grammar.** A token is an address exactly when it is a dotted quad, of which it
is the word. In a list every maximal run is either stored or counted as rejected, the first eight addresses are stored
in order, and an address is kept when it is one of them, when there is none, or when the list is empty. No access is
outside its array. -/
theorem peer_filter_grammar :
    (∀ token, ∃ r, peerFilterParseIpv4 token = .ok r ∧ ∀ w, r = some w ↔ DottedQuad token w) ∧
    ∀ spec : Option String, ∃ f, peerFilterParse spec = .ok f ∧
      f.filter.count + f.rejected = (Text.words peerFilterSep (spec.getD "").toList).length ∧
      f.filter.stored =
        ((Text.words peerFilterSep (spec.getD "").toList).filterMap peerFilterAddress).take kPeerFilterCap ∧
      ∀ ip, peerFilterAcceptsChecked f.filter ip = .ok (peerFilterAccepts f.filter ip) ∧
        (peerFilterAccepts f.filter ip = true ↔ ip = 0 ∨ f.filter.count = 0 ∨ ip ∈ f.filter.stored) := by
  refine ⟨peerFilterParseIpv4_iff, fun spec => ⟨_, peerFilterParse_ok spec, ?_⟩⟩
  obtain ⟨hcount, hstored⟩ := stored_foldl (Text.words peerFilterSep (spec.getD "").toList) peerFilterInit
  refine ⟨?_, ?_, fun ip => ⟨peerFilterAcceptsChecked_ok _ ip, peerFilterAccepts_iff _ ip⟩⟩
  · rw [hcount]
    exact Nat.zero_add _
  · rw [hstored]
    rfl

end BzNet
