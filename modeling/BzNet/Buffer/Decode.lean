import BzNet.Buffer.Core
import BzNet.Lib.Text

/-!
# Reading a capture back

`decode_buffer_log.py`, up to the list of decoded records.

* `readMeta` : the metadata file as a dictionary; a file that cannot be opened is an empty one;
* `detectStride` : the length of a record, from the metadata or from the distance of the first two magics;
* `parse` : the records at the multiples of the stride; `none` is an exception.
-/

namespace BzNet.Decode

def MAGIC : Nat := 0x474C5A42

/-- The widths of `'<IIIIQIIIIIHHHH'`. -/
def HDR : List Nat := [4, 4, 4, 4, 8, 4, 4, 4, 4, 4, 2, 2, 2, 2]

def HDR_SIZE : Nat := HDR.sum

/-! ## Metadata -/

abbrev Meta := List Char → Option (List Char)

def metaLine (out : Meta) (line : List Char) : Meta :=
  (Text.cut '=' line).elim out fun kv => Function.update out (Text.strip kv.1) (some (Text.strip kv.2))

/-- Older Linux proxies wrote a literal backslash-r-n, and the last of two equal keys counts. -/
def readMeta (file : Option (List Char)) : Meta :=
  file.elim (fun _ => none) fun raw =>
    let text := Text.replace ['\\', 'r', '\\', 'n'] ['\n'] (Text.universalNewlines raw)
    let text := Text.replace ['\r', '\n'] ['\n'] (Text.replace ['\\', 'n'] ['\n'] text)
    (text.splitOn '\n').foldl metaLine fun _ => none

/-- A text that stands on one line and comes back as it is. -/
structure PlainText (s : List Char) : Prop where
  line : Text.OneLine s
  backslash : '\\' ∉ s
  strip : Text.strip s = s

instance (s : List Char) : Decidable (PlainText s) :=
  decidable_of_iff (('\r' ∉ s ∧ '\n' ∉ s) ∧ '\\' ∉ s ∧ Text.strip s = s)
    ⟨fun h => ⟨h.1, h.2.1, h.2.2⟩, fun h => ⟨h.line, h.backslash, h.strip⟩⟩

theorem plainText_decimal (n : Nat) : PlainText (decimal n) where
  line := ⟨fun h => Text.digit_ne (Text.isDigit_toDigits h) rfl rfl,
    fun h => Text.digit_ne (Text.isDigit_toDigits h) rfl rfl⟩
  backslash := fun h => Text.digit_ne (Text.isDigit_toDigits h) rfl rfl
  strip := Text.strip_of_no_space fun _ h => Text.isSpace_digit (Text.isDigit_toDigits h)

/-- A name and a value that a reader of `name=value` lines takes apart where they were put together. -/
structure PlainField (f : List Char × List Char) : Prop where
  name : PlainText f.1
  equals : '=' ∉ f.1
  value : PlainText f.2

def fieldLine (f : List Char × List Char) : List Char := f.1 ++ '=' :: f.2

theorem metaLine_field {f : List Char × List Char} (h : PlainField f) (out : Meta) :
    metaLine out (fieldLine f) = Function.update out f.1 (some f.2) := by
  rw [metaLine, fieldLine, Text.cut_append h.equals]
  simp only [Option.elim_some, h.name.strip, h.value.strip]

theorem oneLine_field {f : List Char × List Char} (h : PlainField f) : Text.OneLine (fieldLine f) := by
  constructor
  · simp [fieldLine, h.name.line.1, h.value.line.1]
  · simp [fieldLine, h.name.line.2, h.value.line.2]

/-- **A metadata file of plain fields** reads as those fields, the later ones over the earlier. -/
theorem readMeta_fields {fields : List (List Char × List Char)} (h : ∀ f ∈ fields, PlainField f) :
    readMeta (some (fields.flatMap fun f => f.1 ++ '=' :: f.2 ++ ['\r', '\n'])) =
      fields.foldl (fun (out : Meta) f => Function.update out f.1 (some f.2)) (fun _ => none) := by
  have hlines : (fields.flatMap fun f => f.1 ++ '=' :: f.2 ++ ['\r', '\n']) =
      (fields.map fieldLine).flatMap fun l => l ++ ['\r', '\n'] := by
    rw [List.flatMap_map]
    rfl
  have hone : ∀ l ∈ fields.map fieldLine, Text.OneLine l := by
    rintro l hl
    obtain ⟨f, hf, rfl⟩ := List.mem_map.mp hl
    exact oneLine_field (h f hf)
  -- after the translation of line ends there is neither a backslash nor a carriage return left to replace
  have hback : '\\' ∉ Text.universalNewlines ((fields.map fieldLine).flatMap fun l => l ++ ['\r', '\n']) := by
    rw [Text.universalNewlines_lines fun l hl => (hone l hl).1]
    simp only [List.mem_flatMap, List.mem_map, not_exists, not_and]
    rintro _ ⟨f, hf, rfl⟩
    simp [fieldLine, (h f hf).name.backslash, (h f hf).value.backslash]
  have hret : '\r' ∉ Text.universalNewlines ((fields.map fieldLine).flatMap fun l => l ++ ['\r', '\n']) := by
    rw [Text.universalNewlines_lines fun l hl => (hone l hl).1]
    simp only [List.mem_flatMap, not_exists, not_and]
    rintro l hl
    simp [(hone l hl).1]
  simp only [readMeta, Option.elim_some]
  rw [hlines, Text.replace_of_head hback, Text.replace_of_head hback, Text.replace_of_head hret, Text.lines_read hone,
    List.foldl_append, List.foldl_map]
  have hlast : ∀ out : Meta, [[]].foldl metaLine out = out := fun out => rfl
  rw [hlast]
  clear hlast hlines hone hback hret
  generalize (fun _ => none : Meta) = out
  induction fields generalizing out with
  | nil => rfl
  | cons f fields ih =>
    rw [List.foldl_cons, List.foldl_cons, metaLine_field (h f List.mem_cons_self)]
    exact ih (fun g hg => h g (List.mem_cons_of_mem _ hg)) _

/-! ## The length of a record -/

inductive StrideSource where
  | fromMeta
  | scanned
  | missing
deriving DecidableEq

/-- `blob.find(pat, start)`. -/
def find (blob pat : List U8) (start : Nat) : Option Nat :=
  (List.range (blob.length + 1)).find? fun i => start ≤ i && pat.isPrefixOf (blob.drop i)

/-- `int(meta.get('record_stride', 0))`, when it can be the length of a record. -/
def metaStride (blob : List U8) (info : Meta) : Option Nat :=
  let stride := (info "record_stride".toList).elim (some 0) Text.parseInt
  (stride.filter fun s : Int => HDR_SIZE < s ∧ blob.length % s = 0).map Int.toNat

/-- The distance of the second magic from the first. -/
def scanStride (blob : List U8) : Option Nat :=
  let magic := Bytes.le 4 MAGIC
  (find blob magic 0).bind fun first => (find blob magic (first + 4)).map fun nxt => nxt - first

def detectStride (blob : List U8) (info : Meta) : Nat × StrideSource :=
  (metaStride blob info).elim ((scanStride blob).elim (0, .missing) fun s => (s, .scanned)) fun s => (s, .fromMeta)

/-! ## Records -/

/-- The fields of a header as integers. -/
structure Header where
  magic : Nat
  ver : Nat
  etype : Nat
  sid : Nat
  tick : Nat
  seq : Nat
  req : Nat
  xfer : Nat
  wsa : Nat
  ip : Nat
  port : Nat
  flags : Nat
  plen : Nat
  rsv : Nat

/-- The values of a structure of this layout. -/
def Header.ofList (l : List Nat) : Header where
  magic := l.getD 0 0
  ver := l.getD 1 0
  etype := l.getD 2 0
  sid := l.getD 3 0
  tick := l.getD 4 0
  seq := l.getD 5 0
  req := l.getD 6 0
  xfer := l.getD 7 0
  wsa := l.getD 8 0
  ip := l.getD 9 0
  port := l.getD 10 0
  flags := l.getD 11 0
  plen := l.getD 12 0
  rsv := l.getD 13 0

/-- `HDR.unpack_from(blob, off)`, which wants a whole header. -/
def unpackFrom (blob : List U8) (off : Nat) : Option Header :=
  if off + HDR_SIZE ≤ blob.length then some (Header.ofList (Bytes.unpack HDR (blob.drop off))) else none

structure Record where
  ver : Nat
  etype : Nat
  sid : Nat
  tick : Nat
  seq : Nat
  req : Nat
  xfer : Nat
  wsa : Nat
  ip : List Char
  port : Nat
  flags : Nat
  plen : Int
  payload : List U8
deriving DecidableEq

/-- `'%d.%d.%d.%d'`, lowest byte first. -/
def dotted (ip : Nat) : List Char :=
  decimal (ip % 256) ++ '.' :: decimal (ip / 2 ^ 8 % 256) ++ '.' :: decimal (ip / 2 ^ 16 % 256) ++
    '.' :: decimal (ip / 2 ^ 24 % 256)

def record (blob : List U8) (stride off : Nat) (h : Header) : Record :=
  let plen := min (h.plen : Int) (stride - HDR_SIZE)
  ⟨h.ver, h.etype, h.sid, h.tick, h.seq, h.req, h.xfer, h.wsa, dotted h.ip, h.port, h.flags, plen,
    (blob.drop (off + HDR_SIZE)).take plen.toNat⟩

/-- The loop over the offsets, with the records so far and the number of those without the magic; a limit of `0`
is none. -/
def parseFrom (blob : List U8) (stride : Nat) (sidFilter : Option Nat) (limit : Int) :
    List Nat → List Record → Nat → Option (List Record × Nat)
  | [], recs, bad => some (recs, bad)
  | off :: offs, recs, bad =>
    (unpackFrom blob off).bind fun h =>
      if h.magic ≠ MAGIC then parseFrom blob stride sidFilter limit offs recs (bad + 1)
      else if sidFilter.any fun sid => h.sid ≠ sid then parseFrom blob stride sidFilter limit offs recs bad
      else
        let recs := recs ++ [record blob stride off h]
        if limit ≠ 0 ∧ limit ≤ recs.length then some (recs, bad)
        else parseFrom blob stride sidFilter limit offs recs bad

/-- `range(0, stop, step)`. -/
def rangeBy (stop step : Nat) : List Nat := (List.range ((stop + step - 1) / step)).map fun i => i * step

/-- A step of zero is an exception. -/
def parse (blob : List U8) (stride : Nat) (sidFilter : Option Nat) (limit : Int) :
    Option (List Record × Nat) :=
  if stride = 0 then none else parseFrom blob stride sidFilter limit (rangeBy (blob.length + 1 - stride) stride) [] 0

/-! ## A file of whole records -/

theorem rangeBy_records {n stride : Nat} (h : 0 < stride) :
    rangeBy (n * stride + 1 - stride) stride = (List.range n).map fun i => i * stride := by
  have hcount : (n * stride + 1 - stride + stride - 1) / stride = n := by
    cases n with
    | zero =>
      rw [Nat.div_eq_zero_iff]
      omega
    | succ n =>
      have hlen : (n + 1) * stride + 1 - stride + stride - 1 = (n + 1) * stride := by
        rw [Nat.succ_mul]
        omega
      rw [hlen, Nat.mul_div_cancel _ h]
  rw [rangeBy, hcount]

/-- With neither a filter nor a limit, offsets whose headers carry the magic all give their record. -/
theorem parseFrom_all {blob : List U8} {stride : Nat} {offs : List Nat} (header : Nat → Header)
    (h : ∀ off ∈ offs, unpackFrom blob off = some (header off) ∧ (header off).magic = MAGIC) (recs : List Record)
    (bad : Nat) :
    parseFrom blob stride none 0 offs recs bad =
      some (recs ++ offs.map fun off => record blob stride off (header off), bad) := by
  induction offs generalizing recs with
  | nil => rw [parseFrom, List.map_nil, List.append_nil]
  | cons off offs ih =>
    obtain ⟨hun, hmagic⟩ := h off List.mem_cons_self
    rw [parseFrom, hun, Option.bind_some, if_neg (not_not_intro hmagic)]
    rw [if_neg (by simp), if_neg fun hl => hl.1 rfl, ih (fun o ho => h o (List.mem_cons_of_mem _ ho)), List.map_cons,
      List.append_assoc, List.singleton_append]

end BzNet.Decode
