import BzNet.Buffer.PeerFilter
import BzNet.Globals.Core
import Mathlib.Data.List.TakeWhile

/-!
# What became of the settings

`init_buffer_log_if_needed`, the same in both proxies: each number is read with a fallback and clamped, and
`env_outcome` works out from the text, the number read and the number used what became of the setting.

* `EnvSetting`, `EnvSetting.read` : a setting with its band, and its reading;
* `initBufferLog` : the configuration of a capture;
* `DigitsOnly`, `decimalU32` : a number spelled in digits, and what the parser accepts;
* `EnvSetting.read_unset`, `EnvSetting.read_rejected`, `EnvSetting.read_accepted` : the reading, by what the variable
  holds;
* `env_outcome_honest_iff` : the report is right exactly when the variable is empty, or its text is accepted and is not
  another spelling of zero.

`unsigned long` has `ulongBits` bits, 32 in the proxies.
-/

namespace BzNet

def kDefaultPayloadBytes : Nat := 32
def kDefaultRingRecords : Nat := 65536

/-! ## One setting -/

def clampU32 (v lo hi : U32) : U32 := if v < lo then lo else if v > hi then hi else v

/-- The check of `env_outcome` that a text which reads as 0 is a number. -/
def spelledInDigits (raw : List Char) : Bool :=
  let blank (c : Char) : Bool := c = ' ' ∨ c = '\t'
  let p := raw.dropWhile blank
  let digits := p.head?.any Char.isDigit
  let p := (p.dropWhile Char.isDigit).dropWhile blank
  digits && p.isEmpty

def envOutcome (raw : Option String) (parsed effective : U32) : EnvOutcome :=
  match raw with
  | none => .unset
  | some v =>
    if v = "" then .unset
    else if parsed = 0 ∧ effective ≠ 0 ∧ !spelledInDigits v.toList then .bad
    else if parsed = effective then .used
    else .clamped

/-- `parse_env_u32`. -/
def parseEnvU32 (ulongBits : Nat) (env : Environment) (name : String) (fallback : U32) : U32 :=
  ngParseEnvU32 ulongBits env name fallback

/-- A variable, the value without it, and the band; the fallback is in the band, and the band leaves 0 out. -/
structure EnvSetting where
  name : String
  fallback : U32
  lo : U32
  hi : U32
  lo_pos : 0 < lo.toNat
  lo_le : lo.toNat ≤ fallback.toNat
  le_hi : fallback.toNat ≤ hi.toNat

def bufferLogBytes : EnvSetting where
  name := "BZ_BUFFER_LOG_BYTES"
  fallback := BitVec.ofNat 32 kDefaultPayloadBytes
  lo := BitVec.ofNat 32 kMinPayloadBytes
  hi := BitVec.ofNat 32 kMaxPayloadBytes
  lo_pos := by decide
  lo_le := by decide
  le_hi := by decide

def bufferLogRing : EnvSetting where
  name := "BZ_BUFFER_LOG_RING"
  fallback := BitVec.ofNat 32 kDefaultRingRecords
  lo := BitVec.ofNat 32 kMinRingRecords
  hi := BitVec.ofNat 32 kMaxRingRecords
  lo_pos := by decide
  lo_le := by decide
  le_hi := by decide

/-- The value in effect, and what is reported of it. -/
structure EnvReading where
  value : U32
  outcome : EnvOutcome

def EnvSetting.read (x : EnvSetting) (ulongBits : Nat) (env : Environment) : EnvReading :=
  let want := parseEnvU32 ulongBits env x.name x.fallback
  let value := clampU32 want x.lo x.hi
  ⟨value, envOutcome (env x.name) want value⟩

theorem clampU32_of_mem {v lo hi : U32} (hlo : lo.toNat ≤ v.toNat) (hhi : v.toNat ≤ hi.toNat) : clampU32 v lo hi = v := by
  rw [clampU32, if_neg (by rw [BitVec.lt_def]; omega), if_neg (by rw [gt_iff_lt, BitVec.lt_def]; omega)]

theorem clampU32_mem {v lo hi : U32} (h : lo.toNat ≤ hi.toNat) :
    lo.toNat ≤ (clampU32 v lo hi).toNat ∧ (clampU32 v lo hi).toNat ≤ hi.toNat := by
  unfold clampU32
  split
  · exact ⟨Nat.le_refl _, h⟩
  · next hlo =>
    rw [BitVec.lt_def] at hlo
    split
    · exact ⟨h, Nat.le_refl _⟩
    · next hhi =>
      rw [gt_iff_lt, BitVec.lt_def] at hhi
      exact ⟨by omega, by omega⟩

theorem EnvSetting.value_mem (x : EnvSetting) (ulongBits : Nat) (env : Environment) :
    x.lo.toNat ≤ (x.read ulongBits env).value.toNat ∧ (x.read ulongBits env).value.toNat ≤ x.hi.toNat :=
  clampU32_mem (x.lo_le.trans x.le_hi)

/-- `init_buffer_log_if_needed`: no configuration where the capture is not asked for. -/
def initBufferLog (platform : Platform) (ulongBits : Nat) (env : Environment) :
    Except ArrayFault (Option BufferLogCfg) :=
  if !(env "BZ_BUFFER_LOG").any ngEnvTruthy then .ok none
  else (peerFilterParse (env "BZ_BUFFER_LOG_PEER")).map fun f => some {
    platform := platform
    payloadBytes := (bufferLogBytes.read ulongBits env).value.toNat
    ringRecords := (bufferLogRing.read ulongBits env).value.toNat
    peerFilter := f.filter
    ringOutcome := (bufferLogRing.read ulongBits env).outcome
    bytesOutcome := (bufferLogBytes.read ulongBits env).outcome
    payload_ge := (bufferLogBytes.value_mem ulongBits env).1
    payload_le := (bufferLogBytes.value_mem ulongBits env).2
    ring_ge := (bufferLogRing.value_mem ulongBits env).1
    ring_le := (bufferLogRing.value_mem ulongBits env).2 }

/-- A capture that is asked for starts with the two readings. -/
theorem initBufferLog_ok (platform : Platform) (ulongBits : Nat) {env : Environment}
    (hon : (env "BZ_BUFFER_LOG").any ngEnvTruthy = true) :
    ∃ cfg, initBufferLog platform ulongBits env = .ok (some cfg) ∧
      bufferLogRing.read ulongBits env = ⟨BitVec.ofNat 32 cfg.ringRecords, cfg.ringOutcome⟩ ∧
      bufferLogBytes.read ulongBits env = ⟨BitVec.ofNat 32 cfg.payloadBytes, cfg.bytesOutcome⟩ := by
  have hback : ∀ r : EnvReading, r = ⟨BitVec.ofNat 32 r.value.toNat, r.outcome⟩ := by
    intro r
    rw [BitVec.ofNat_toNat, BitVec.setWidth_eq]
  rw [initBufferLog, hon, Bool.not_true, if_neg Bool.false_ne_true, peerFilterParse_ok]
  exact ⟨_, rfl, hback _, hback _⟩

/-! ## What the parser accepts -/

/-- The text as a number of 32 bits: all of it is one. -/
def decimalU32 (ulongBits : Nat) (v : String) : Option U32 :=
  let r := strtoul ulongBits v.toList
  if r.2 ≠ [] ∨ 0xffffffff < r.1 then none else some (BitVec.ofNat 32 r.1)

def DigitsOnly (raw : List Char) : Prop :=
  ∃ blanks digits, raw = blanks ++ digits ∧ (∀ c ∈ blanks, c = ' ' ∨ c = '\t') ∧ digits ≠ [] ∧
    ∀ c ∈ digits, c.isDigit = true

theorem isSpace_of_digit {c : Char} (h : c.isDigit = true) : isSpace c = false := by
  rw [Char.isDigit, Bool.and_eq_true, decide_eq_true_eq, decide_eq_true_eq] at h
  have hlo : 48 ≤ c.toNat := h.1
  have hne : c ≠ ' ' := by
    rintro rfl
    exact absurd hlo (by decide)
  refine decide_eq_false (not_or.mpr ⟨hne, ?_⟩)
  omega

theorem strtoul_digits {blanks digits rest : List Char} (ulongBits : Nat) (hb : ∀ c ∈ blanks, c = ' ' ∨ c = '\t')
    (hne : digits ≠ []) (hd : ∀ c ∈ digits, c.isDigit = true) (hrest : ∀ c ∈ rest.head?, c.isDigit = false) :
    (strtoul ulongBits (blanks ++ digits ++ rest)).2 = rest := by
  have hspace : ∀ c ∈ blanks, isSpace c = true := by
    intro c hc
    rcases hb c hc with rfl | rfl <;> rfl
  cases digits with
  | nil => exact absurd rfl hne
  | cons d ds =>
    have hdig := hd d List.mem_cons_self
    have hbody : (blanks ++ d :: ds ++ rest).dropWhile isSpace = d :: (ds ++ rest) := by
      rw [List.append_assoc, List.dropWhile_append_of_pos hspace, List.cons_append,
        List.dropWhile_cons_of_neg (by simp [isSpace_of_digit hdig])]
    have hminus : d ≠ '-' := by
      rintro rfl
      exact absurd hdig (by decide)
    have hplus : d ≠ '+' := by
      rintro rfl
      exact absurd hdig (by decide)
    have hbehind : (d :: (ds ++ rest)).dropWhile Char.isDigit = rest := by
      rw [← List.cons_append, List.dropWhile_append_of_pos hd]
      cases rest with
      | nil => rfl
      | cons c rest => rw [List.dropWhile_cons_of_neg (by simp [hrest c rfl])]
    have hfirst : ((d :: (ds ++ rest)).takeWhile Char.isDigit).isEmpty = false := by
      rw [List.takeWhile_cons_of_pos hdig]
      rfl
    rw [strtoul, hbody]
    split
    next hbody' =>
      split at hbody'
      · next h => exact absurd (List.cons.inj h).1 hminus
      · next h => exact absurd (List.cons.inj h).1 hplus
      · cases hbody'
        dsimp only
        rw [hfirst, if_neg Bool.false_ne_true]
        exact hbehind

theorem head_isDigit {l : List Char} (h : l.head?.any Char.isDigit = true) : l.takeWhile Char.isDigit ≠ [] := by
  cases l with
  | nil => cases h
  | cons d ds =>
    have hdig : d.isDigit = true := h
    exact Text.takeWhile_ne_nil hdig

theorem DigitsOnly.spelled {raw : List Char} (h : DigitsOnly raw) : spelledInDigits raw = true := by
  obtain ⟨blanks, digits, rfl, hb, hne, hd⟩ := h
  cases digits with
  | nil => exact absurd rfl hne
  | cons d ds =>
    have hdig := hd d List.mem_cons_self
    have hnot : ¬ (d = ' ' ∨ d = '\t') := by
      rintro (rfl | rfl)
      · exact absurd hdig (by decide)
      · exact absurd hdig (by decide)
    have hend : (d :: ds).dropWhile Char.isDigit = [] := List.dropWhile_eq_nil_iff.mpr hd
    unfold spelledInDigits
    dsimp only
    rw [List.dropWhile_append_of_pos fun c hc => decide_eq_true (hb c hc),
      List.dropWhile_cons_of_neg (by simpa using hnot), hend, List.head?_cons, Option.any_some, hdig, Bool.true_and]
    rfl

theorem spelledInDigits_iff {ulongBits : Nat} {raw : List Char} (haccept : (strtoul ulongBits raw).2 = []) :
    spelledInDigits raw = true ↔ DigitsOnly raw := by
  refine ⟨fun h => ?_, DigitsOnly.spelled⟩
  unfold spelledInDigits at h
  generalize hblank : (fun c : Char => decide (c = ' ' ∨ c = '\t')) = blank at h
  dsimp only at h
  rw [Bool.and_eq_true] at h
  have hb : ∀ c ∈ raw.takeWhile blank, c = ' ' ∨ c = '\t' := fun c hc => by
    have hc := List.mem_takeWhile_imp hc
    rwa [← hblank, decide_eq_true_iff] at hc
  have hd : ∀ c ∈ (raw.dropWhile blank).takeWhile Char.isDigit, c.isDigit = true := fun _ => List.mem_takeWhile_imp
  have hsplit : raw = raw.takeWhile blank ++ (raw.dropWhile blank).takeWhile Char.isDigit ++
      (raw.dropWhile blank).dropWhile Char.isDigit := by
    rw [List.append_assoc, List.takeWhile_append_dropWhile, List.takeWhile_append_dropWhile]
  have hbehind := strtoul_digits ulongBits hb (head_isDigit h.1) hd (Text.head_dropWhile (raw.dropWhile blank))
  rw [← hsplit, haccept] at hbehind
  rw [← hbehind, List.append_nil] at hsplit
  exact ⟨_, _, hsplit, hb, head_isDigit h.1, hd⟩

/-! ## The reading, by what the variable holds -/

section Read
variable {x : EnvSetting} {ulongBits : Nat} {env : Environment} {v : String} {n : U32}

theorem EnvSetting.read_unset (h : env x.name = none ∨ env x.name = some "") :
    (x.read ulongBits env).outcome = .unset := by
  rcases h with h | h
  · rw [EnvSetting.read, h]
    rfl
  · rw [EnvSetting.read, h]
    rfl

theorem parseEnvU32_text (hv : env x.name = some v) (hne : v ≠ "") :
    parseEnvU32 ulongBits env x.name x.fallback = (decimalU32 ulongBits v).getD x.fallback := by
  rw [parseEnvU32, ngParseEnvU32, hv, decimalU32]
  dsimp only
  rw [if_neg hne]
  split <;> rfl

theorem EnvSetting.value_ne_zero (x : EnvSetting) (want : U32) : clampU32 want x.lo x.hi ≠ 0 := by
  intro h0
  have hmem := (@clampU32_mem want x.lo x.hi (x.lo_le.trans x.le_hi)).1
  have hpos := x.lo_pos
  rw [h0] at hmem
  exact absurd (Nat.lt_of_lt_of_le hpos hmem) (Nat.lt_irrefl 0)

/-- A text that is not accepted leaves the fallback, which is reported as if it had been asked for. -/
theorem EnvSetting.read_rejected (hv : env x.name = some v) (hne : v ≠ "") (hd : decimalU32 ulongBits v = none) :
    x.read ulongBits env = ⟨x.fallback, .used⟩ := by
  have hvalue : clampU32 x.fallback x.lo x.hi = x.fallback := clampU32_of_mem x.lo_le x.le_hi
  have hzero : x.fallback ≠ 0 := hvalue ▸ x.value_ne_zero x.fallback
  rw [EnvSetting.read, parseEnvU32_text hv hne, hd, hv]
  dsimp only [Option.getD_none, envOutcome]
  rw [hvalue, if_neg hne, if_neg fun h => hzero h.1, if_pos rfl]

theorem clampU32_eq_iff {lo hi : U32} (h : lo.toNat ≤ hi.toNat) :
    n = clampU32 n lo hi ↔ lo.toNat ≤ n.toNat ∧ n.toNat ≤ hi.toNat := by
  constructor
  · intro heq
    have hmem := @clampU32_mem n lo hi h
    rwa [← heq] at hmem
  · exact fun hmem => (clampU32_of_mem hmem.1 hmem.2).symm

theorem decimalU32_rest (hd : decimalU32 ulongBits v = some n) : (strtoul ulongBits v.toList).2 = [] := by
  unfold decimalU32 at hd
  dsimp only at hd
  split at hd
  · cases hd
  · next h => exact not_not.mp (not_or.mp h).1

theorem EnvSetting.read_text (hv : env x.name = some v) (hne : v ≠ "") (hd : decimalU32 ulongBits v = some n) :
    x.read ulongBits env = ⟨clampU32 n x.lo x.hi,
      if n = 0 ∧ (!spelledInDigits v.toList) = true then .bad
      else if x.lo.toNat ≤ n.toNat ∧ n.toNat ≤ x.hi.toNat then .used else .clamped⟩ := by
  rw [EnvSetting.read, parseEnvU32_text hv hne, hd, hv]
  dsimp only [Option.getD_some, envOutcome]
  rw [if_neg hne]
  simp only [x.value_ne_zero, ne_eq, not_false_iff, true_and, clampU32_eq_iff (x.lo_le.trans x.le_hi)]

/-- A zero that is not spelled in digits passes for unparseable. -/
theorem EnvSetting.read_zero (hv : env x.name = some v) (hne : v ≠ "") (hd : decimalU32 ulongBits v = some 0)
    (hdigits : ¬ DigitsOnly v.toList) : (x.read ulongBits env).outcome = .bad := by
  rw [x.read_text hv hne hd]
  refine if_pos ⟨rfl, ?_⟩
  rwa [Bool.not_eq_true', ← Bool.not_eq_true, spelledInDigits_iff (decimalU32_rest hd)]

theorem EnvSetting.read_accepted (hv : env x.name = some v) (hne : v ≠ "") (hd : decimalU32 ulongBits v = some n)
    (hplain : n ≠ 0 ∨ DigitsOnly v.toList) : x.read ulongBits env = ⟨clampU32 n x.lo x.hi,
      if x.lo.toNat ≤ n.toNat ∧ n.toNat ≤ x.hi.toNat then .used else .clamped⟩ := by
  rw [x.read_text hv hne hd, if_neg]
  rintro ⟨h0, hspelled⟩
  rw [Bool.not_eq_true', ← Bool.not_eq_true, spelledInDigits_iff (decimalU32_rest hd)] at hspelled
  exact hplain.elim (fun hn => hn h0) hspelled

end Read

/-! ## The report -/

/-- What the report should say: the variable is not set, its text is no number of 32 bits, the number is outside the
band, or it is in the band and in effect. -/
def EnvSetting.Honest (x : EnvSetting) (ulongBits : Nat) (env : Environment) : Prop :=
  ((x.read ulongBits env).outcome = .unset ↔ env x.name = none ∨ env x.name = some "") ∧
  ((x.read ulongBits env).outcome = .bad ↔ ∃ v, env x.name = some v ∧ v ≠ "" ∧ decimalU32 ulongBits v = none) ∧
  ((x.read ulongBits env).outcome = .clamped ↔
    ∃ v n, env x.name = some v ∧ v ≠ "" ∧ decimalU32 ulongBits v = some n ∧
      (n.toNat < x.lo.toNat ∨ x.hi.toNat < n.toNat)) ∧
  ((x.read ulongBits env).outcome = .used ↔
    ∃ v n, env x.name = some v ∧ v ≠ "" ∧ decimalU32 ulongBits v = some n ∧ x.lo.toNat ≤ n.toNat ∧
      n.toNat ≤ x.hi.toNat ∧ (x.read ulongBits env).value = n)

/-- The text, if there is any, is accepted and is not another spelling of zero. -/
def EnvSetting.Plain (x : EnvSetting) (ulongBits : Nat) (env : Environment) : Prop :=
  ∀ v, env x.name = some v → v ≠ "" → ∃ n, decimalU32 ulongBits v = some n ∧ (n ≠ 0 ∨ DigitsOnly v.toList)

theorem EnvSetting.honest_unset {x : EnvSetting} {ulongBits : Nat} {env : Environment}
    (h : env x.name = none ∨ env x.name = some "") : x.Honest ulongBits env := by
  have hno : ∀ v, env x.name = some v → v ≠ "" → False := by
    intro v hv hne
    rcases h with h | h
    · rw [h] at hv
      cases hv
    · exact hne (Option.some.inj (hv.symm.trans h))
  rw [EnvSetting.Honest, x.read_unset h]
  refine ⟨iff_of_true rfl h, iff_of_false (by decide) ?_, iff_of_false (by decide) ?_, iff_of_false (by decide) ?_⟩
  · rintro ⟨v, hv, hne, -⟩
    exact hno v hv hne
  · rintro ⟨v, -, hv, hne, -⟩
    exact hno v hv hne
  · rintro ⟨v, -, hv, hne, -⟩
    exact hno v hv hne

theorem EnvSetting.honest_accepted {x : EnvSetting} {ulongBits : Nat} {env : Environment} {v : String} {n : U32}
    (hv : env x.name = some v) (hne : v ≠ "") (hd : decimalU32 ulongBits v = some n)
    (hplain : n ≠ 0 ∨ DigitsOnly v.toList) : x.Honest ulongBits env := by
  have hset : ¬ (env x.name = none ∨ env x.name = some "") := by
    rintro (h | h)
    · rw [h] at hv
      cases hv
    · exact hne (Option.some.inj (hv.symm.trans h))
  have hbad : ¬ ∃ v, env x.name = some v ∧ v ≠ "" ∧ decimalU32 ulongBits v = none := by
    rintro ⟨v', hv', -, hd'⟩
    obtain rfl := Option.some.inj (hv.symm.trans hv')
    rw [hd] at hd'
    cases hd'
  have hone : ∀ P : U32 → Prop,
      (∃ v n, env x.name = some v ∧ v ≠ "" ∧ decimalU32 ulongBits v = some n ∧ P n) ↔ P n := by
    refine fun P => ⟨?_, fun hP => ⟨v, n, hv, hne, hd, hP⟩⟩
    rintro ⟨v', n', hv', -, hd', hP⟩
    obtain rfl := Option.some.inj (hv.symm.trans hv')
    rwa [Option.some.inj (hd.symm.trans hd')]
  rw [EnvSetting.Honest, hone, hone, x.read_accepted hv hne hd hplain, iff_false_intro hset, iff_false_intro hbad]
  by_cases hband : x.lo.toNat ≤ n.toNat ∧ n.toNat ≤ x.hi.toNat
  · have hvalue : clampU32 n x.lo x.hi = n := clampU32_of_mem hband.1 hband.2
    rw [if_pos hband]
    dsimp only
    refine ⟨iff_of_false (by decide) id, iff_of_false (by decide) id, iff_of_false (by decide) ?_,
      iff_of_true rfl ⟨hband.1, hband.2, hvalue⟩⟩
    omega
  · rw [if_neg hband]
    dsimp only
    refine ⟨iff_of_false (by decide) id, iff_of_false (by decide) id, iff_of_true rfl (by omega),
      iff_of_false (by decide) fun hin => hband ⟨hin.1, hin.2.1⟩⟩

/-- **The report is honest exactly for plain texts.** It is what it should be when the variable is not set, or its text
is a number of 32 bits for the parser and, where that number is 0, digits after blanks and tabs. A text that the parser
does not accept is reported as used, and a zero with a sign or another space before it as unparseable. -/
theorem env_outcome_honest_iff (x : EnvSetting) (ulongBits : Nat) (env : Environment) :
    x.Honest ulongBits env ↔ x.Plain ulongBits env := by
  constructor
  · rintro ⟨-, hbad, -, -⟩ v hv hne
    cases hd : decimalU32 ulongBits v with
    | none =>
      have hused := congrArg EnvReading.outcome (x.read_rejected hv hne hd)
      rw [hbad.mpr ⟨v, hv, hne, hd⟩] at hused
      cases hused
    | some n =>
      refine ⟨n, rfl, ?_⟩
      by_contra hzero
      rw [not_or, not_not] at hzero
      obtain ⟨rfl, hdigits⟩ := hzero
      obtain ⟨v', hv', -, hd'⟩ := hbad.mp (x.read_zero hv hne hd hdigits)
      obtain rfl := Option.some.inj (hv.symm.trans hv')
      rw [hd] at hd'
      cases hd'
  · intro hplain
    by_cases hset : env x.name = none ∨ env x.name = some ""
    · exact EnvSetting.honest_unset hset
    · rw [not_or] at hset
      obtain ⟨v, hv⟩ := Option.ne_none_iff_exists'.mp hset.1
      have hne : v ≠ "" := fun h0 => hset.2 (h0 ▸ hv)
      obtain ⟨n, hd, hn⟩ := hplain v hv hne
      exact EnvSetting.honest_accepted hv hne hd hn

/-- A typo in the size of the ring is reported as if it had been asked for. -/
theorem env_outcome_typo :
    ¬ ∀ (x : EnvSetting) (env : Environment), x ∈ [bufferLogRing, bufferLogBytes] → x.Honest 32 env := by
  intro h
  let env : Environment := fun name => if name = "BZ_BUFFER_LOG_RING" then some "50k" else none
  have hrejected : decimalU32 32 "50k" = none := by decide +kernel
  have hplain := (env_outcome_honest_iff bufferLogRing 32 env).mp (h bufferLogRing env List.mem_cons_self)
  obtain ⟨n, hn, -⟩ := hplain "50k" rfl (by decide)
  rw [hrejected] at hn
  cases hn

end BzNet
