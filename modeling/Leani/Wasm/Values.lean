import Leani.Wasm.Format

/-!
# Values of the binary format

What a `Writer` writes a `Reader` reads back; and a read that does not throw consumes bytes that
denote the value it yields. Those are the bytes the writer has for the value, unless a varint has
redundant bytes or a text is not UTF-8.
-/

namespace Leani.Wasm.AssemblyScript

open Library List Bind Postcard Reading UInt64

inductive Kind where
  | byte
  | uint
  | flag
  | raw (length : Nat)
  | bytes
  | text
  | u256
  deriving DecidableEq

inductive Value where
  | byte (value : UInt8)
  | uint (value : UInt64)
  | flag (value : Bool)
  | raw (value : List UInt8)
  | bytes (value : List UInt8)
  | text (value : List UInt16)
  | u256 (value : U256)
  deriving DecidableEq

def Value.kind : Value → Kind
  | .byte _ => .byte
  | .uint _ => .uint
  | .flag _ => .flag
  | .raw value => .raw value.length
  | .bytes _ => .bytes
  | .text _ => .text
  | .u256 _ => .u256

def Kind.read : Kind → Reading Value
  | .byte => do return .byte (← Reading.byte)
  | .uint => do return .uint (← Reading.uint)
  | .flag => do return .flag (← Reading.flag)
  | .raw length => do return .raw (← Reading.raw length)
  | .bytes => do return .bytes (← Reading.bytes)
  | .text => do return .text (← Reading.text)
  | .u256 => do return .u256 (← Reading.u256)

def Value.write : Value → Writer → Except String Writer
  | .byte value => Writer.byte value
  | .uint value => Writer.uint value
  | .flag value => Writer.flag value
  | .raw value => Writer.raw value
  | .bytes value => Writer.bytes value
  | .text value => Writer.text value
  | .u256 value => Writer.u256 value

def readAll : List Kind → Reading (List Value)
  | [] => return []
  | kind :: rest => do
    let value ← kind.read
    return value :: (← readAll rest)

def writeAll : List Value → Writer → Except String Writer
  | [], writer => .ok writer
  | value :: rest, writer => do
    let writer ← value.write writer
    writeAll rest writer

def Value.encode : Value → List UInt8
  | .byte value => [value]
  | .uint value => Postcard.varint value.toNat
  | .flag value => Postcard.flag value
  | .raw value => value
  | .bytes value => Postcard.bytes value
  | .text value => Postcard.bytes (utf8 value)
  | .u256 value => value.bytes

/-- A write that puts `bytes` after what is written, or fails beyond half a GiB. -/
def Appends (write : Writer → Except String Writer) (bytes : List UInt8) : Prop :=
  ∀ writer, (writer.written.length + bytes.length ≤ 2 ^ 29 →
      ∃ after, write writer = .ok after ∧ after.written = writer.written ++ bytes) ∧
    (2 ^ 29 < writer.written.length + bytes.length → ∃ message, write writer = .error message)

theorem appends_raw (value : List UInt8) : Appends (Writer.raw value) value := by
  intro writer
  constructor
  · intro hfits
    obtain ⟨_, hsize, -, -⟩ := reserve_of_le writer.power hfits
    unfold Writer.raw
    split
    · rename_i heq; rw [hsize] at heq; cases heq
    · exact ⟨_, rfl, rfl⟩
  · intro hlarge
    have hreserve := reserve_of_lt writer.power hlarge
    unfold Writer.raw
    split
    · exact ⟨_, rfl⟩
    · rename_i heq; rw [hreserve] at heq; cases heq

theorem Appends.bind {first second : Writer → Except String Writer} {bytes bytes' : List UInt8}
    (hfst : Appends first bytes) (hsecond : Appends second bytes') :
    Appends (fun writer => first writer >>= second) (bytes ++ bytes') := by
  intro writer
  rw [length_append]
  constructor
  · intro hfits
    obtain ⟨middle, hmid, hwr⟩ := (hfst writer).1 (by omega)
    have hlen : middle.written.length = writer.written.length + bytes.length := by
      rw [hwr, length_append]
    obtain ⟨after, hafter, hwr'⟩ := (hsecond middle).1 (by omega)
    refine ⟨after, ?_, ?_⟩
    · simp only [hmid]; exact hafter
    · rw [hwr', hwr, append_assoc]
  · intro _
    by_cases hfits : writer.written.length + bytes.length ≤ 2 ^ 29
    · obtain ⟨middle, hmid, hwr⟩ := (hfst writer).1 hfits
      have hlen : middle.written.length = writer.written.length + bytes.length := by
        rw [hwr, length_append]
      obtain ⟨msg, hmessage⟩ := (hsecond middle).2 (by omega)
      refine ⟨msg, ?_⟩
      simp only [hmid]; exact hmessage
    · obtain ⟨msg, hmessage⟩ := (hfst writer).2 (by omega)
      refine ⟨msg, ?_⟩
      simp only [hmessage]; rfl

theorem toUInt8_and_seven_or {value : UInt64} :
    (value &&& 0x7f).toUInt8 ||| 0x80 = UInt8.ofNat (value.toNat % 128 + 128) := by
  have hlow : ((value &&& 0x7f).toUInt8).toNat = value.toNat % 128 := by
    rw [toNat_toUInt8, toNat_and_seven]; omega
  rw [← UInt8.toNat_inj, byte_or_eighty (by omega), hlow, toNat_ofNat8 (by omega)]

theorem appends_uint (value : UInt64) : Appends (Writer.uint value) (varint value.toNat) := by
  induction hn : value.toNat using Nat.strongRecOn generalizing value with
  | ind n ih =>
    intro writer
    by_cases hlarge : 0x80 ≤ value
    · have hle : 128 ≤ value.toNat := le_iff_toNat_le.1 hlarge
      have hnext : (value >>> 7).toNat = n / 128 := by rw [toNat_shiftRight_seven, hn]
      have hbind := (appends_raw [UInt8.ofNat (n % 128 + 128)]).bind
        (ih (n / 128) (by omega) (value >>> 7) hnext)
      rw [singleton_append, ← varint_of_le (by omega)] at hbind
      rw [Writer.uint, if_pos hlarge, toUInt8_and_seven_or, hn]; exact hbind writer
    · have hlt : value.toNat < 128 := 
        Nat.lt_of_not_le fun hle => hlarge (le_iff_toNat_le.2 hle)
      have hbyte : value.toUInt8 = UInt8.ofNat n := by
        rw [← UInt8.toNat_inj, toNat_toUInt8, toNat_ofNat8 (by omega), hn]; omega
      rw [Writer.uint, if_neg hlarge, varint_of_lt (by omega), ← hbyte]
      exact appends_raw [value.toUInt8] writer

theorem appends_bytes (value : List UInt8) : Appends (Writer.bytes value) (bytes value) := by
  have hbind := (appends_uint (ofNat value.length)).bind (appends_raw value)
  by_cases hlen : value.length < 2 ^ 64
  · rw [toNat_ofNat', Nat.mod_eq_of_lt hlen] at hbind; exact hbind
  · -- Such a value is refused, whatever its length is written as.
    intro writer
    refine ⟨?_, fun _ => (hbind writer).2 ?_⟩
    · intro hfits; rw [Postcard.bytes, length_append] at hfits; omega
    · rw [length_append]; omega

theorem Value.appends (value : Value) : Appends value.write value.encode := by
  cases value with
  | byte value => exact appends_raw [value]
  | uint value => exact appends_uint value
  | flag value => exact appends_raw [if value then 1 else 0]
  | raw value => exact appends_raw value
  | bytes value => exact appends_bytes value
  | text value => exact appends_bytes (utf8 value)
  | u256 value => exact appends_raw value.bytes

theorem appends_writeAll (vals : List Value) :
    Appends (writeAll vals) (vals.flatMap Value.encode) := by
  induction vals with
  | nil =>
    intro writer
    refine ⟨fun _ => ⟨writer, rfl, (append_nil _).symm⟩, fun hlarge => ?_⟩
    have := writer.fits
    have := Nat.le_of_dvd (by decide) writer.power
    simp only [flatMap_nil, length_nil] at hlarge; omega
  | cons value rest ih =>
    rw [flatMap_cons]; exact value.appends.bind ih

/-- The read yields `value` where `encoded` is next, and stops behind it. -/
def Reads {α : Type} (read : Reading α) (encoded : List UInt8) (value : α) : Prop :=
  ∀ ⦃reader before rest⦄, Reader.At reader before (encoded ++ rest) →
    read reader = .ok (value, reader.after encoded.length)

theorem reads_pure {α : Type} (value : α) : Reads (pure value) [] value := by
  intro _ _ _ _; rw [length_nil, Reader.after_zero]; rfl

theorem Reads.bind {α β : Type} {read : Reading α} {k : α → Reading β}
    {enc enc' : List UInt8} {value : α} {value' : β} (h : Reads read enc value)
    (h' : Reads (k value) enc' value') : Reads (read >>= k) (enc ++ enc') value' := by
  intro _ _ _ hat
  rw [append_assoc] at hat
  have hnext := h' hat.after
  rw [Reader.after_after] at hnext
  simp only [Bind.bind, StateT.bind, h hat, Except.bind, length_append]; exact hnext

theorem Reads.map {α β : Type} {read : Reading α} {enc : List UInt8} {value : α}
    (h : Reads read enc value) (f : α → β) : Reads (do return f (← read)) enc (f value) := by
  have hbind := h.bind (k := fun value => pure (f value)) (reads_pure (f value))
  rw [append_nil] at hbind; exact hbind

theorem reads_byte (value : UInt8) : Reads byte [value] value := by
  intro _ _ _ h; exact byte_cons h

theorem length_varint_le_ten {n : Nat} (h : n < 2 ^ 64) : (varint n).length ≤ 10 :=
  length_varint_le (k := 9) (Nat.lt_trans h (by decide))

theorem reads_uint {n : Nat} (hn : n < 2 ^ 64) : Reads uint (varint n) (ofNat n) := by
  intro _ _ rest h
  refine (uint_eq_ok h).2 ⟨varint n, rest, digits_varint n rest, length_varint_le_ten hn, ?_⟩
  rw [number_varint]

theorem reads_flag (value : Bool) : Reads flag (flag value) value := by
  intro _ _ _ h
  cases value with
  | false =>
    simp only [Reading.flag, Bind.bind, StateT.bind, Reading.byte_cons h]; rfl
  | true =>
    simp only [Reading.flag, Bind.bind, StateT.bind, Reading.byte_cons h]; rfl

theorem reads_raw (value : List UInt8) : Reads (raw value.length) value value := by
  intro _ _ rest h
  have hmax := h.length_le
  rw [length_append, blockMaxSize] at hmax; exact (raw_eq_ok h (by omega)).2 ⟨rest, rfl, rfl, rfl⟩

theorem reads_bytes (value : List UInt8) : Reads Reading.bytes (Postcard.bytes value) value := by
  intro _ _ _ h
  have hmax := h.length_le
  simp only [Postcard.bytes, length_append, blockMaxSize] at hmax
  have hsmall : value.length < 2 ^ 64 := by omega
  have hlen : i32 (UInt64.ofNat value.length).toNat = value.length := by
    rw [UInt64.toNat_ofNat', Nat.mod_eq_of_lt hsmall]; exact i32_of_lt (by omega) (by omega)
  rw [Postcard.bytes, append_assoc] at h
  have hraw := reads_raw value h.after
  simp only [Reading.bytes, Bind.bind, StateT.bind, reads_uint hsmall h, Except.bind]
  rw [hlen, hraw, Reader.after_after, Postcard.bytes, length_append]

theorem reads_text (chars : List Char) :
    Reads Reading.text (Postcard.bytes (utf8 (utf16 chars))) (utf16 chars) := by
  have := (reads_bytes (utf8 (utf16 chars))).map Wasm.text; rw [text_utf8] at this; exact this

theorem reads_u256 (value : U256) : Reads u256 value.bytes value := by
  intro _ _ _ h
  have hraw := reads_raw value.bytes h
  rw [value.exact32, Nat.cast_ofNat] at hraw
  simp only [u256, bind, StateT.bind, hraw, Except.bind, dif_pos value.exact32]
  rw [value.exact32]; rfl

def Value.Paired : Value → Prop
  | .text value => ∃ chars, value = utf16 chars
  | _ => True

variable {value : Value}

theorem Value.reads (h : value.Paired) : Reads value.kind.read value.encode value := by
  cases value with
  | byte value => exact (reads_byte value).map Value.byte
  | uint value =>
    have := (reads_uint value.toNat_lt).map Value.uint; rw [UInt64.ofNat_toNat] at this; exact this
  | flag value => exact (reads_flag value).map Value.flag
  | raw value => exact (reads_raw value).map Value.raw
  | bytes value => exact (reads_bytes value).map Value.bytes
  | text value =>
    obtain ⟨chars, rfl⟩ := h; exact (reads_text chars).map Value.text
  | u256 value => exact (reads_u256 value).map Value.u256

theorem reads_readAll : ∀ {vals : List Value}, (∀ value ∈ vals, value.Paired) →
    Reads (readAll (vals.map Value.kind)) (vals.flatMap Value.encode) vals := by
  intro vals
  induction vals with
  | nil =>
    intro _; exact reads_pure []
  | cons value rest ih =>
    intro h
    have hrest := ih (forall_mem_cons.1 h).2
    rw [flatMap_cons]; exact (Value.reads (h value mem_cons_self)).bind (hrest.map (value :: ·))

def Value.Denotes : Value → List UInt8 → Prop
  | .byte value, consumed => consumed = [value]
  | .uint value, consumed =>
    Postcard.digits consumed = some (consumed, []) ∧ Postcard.number consumed = value.toNat
  | .flag value, consumed => consumed = Postcard.flag value
  | .raw value, consumed => consumed = value
  | .bytes value, consumed => ∃ ds, Postcard.digits consumed = some (ds, value) ∧
      Postcard.number ds = value.length
  | .text value, consumed => ∃ ds content, Postcard.digits consumed = some (ds, content) ∧
      Postcard.number ds = content.length ∧ value = Wasm.text content
  | .u256 value, consumed => consumed = value.bytes

def Kind.Canonical : Kind → List UInt8 → Prop
  | .uint, consumed | .bytes, consumed =>
    ∀ ds content, Postcard.digits consumed = some (ds, content) → Postcard.Shortest ds
  | .text, consumed =>
    ∀ ds content, Postcard.digits consumed = some (ds, content) →
      Postcard.Shortest ds ∧ ∃ chars, content = utf8 (utf16 chars)
  | _, _ => True

/-- The numbers that the next bytes claim stay within the integers of the reader: a varint within
64 bits, the end of bytes within the 32-bit offsets. -/
def Kind.Fits : Kind → Nat → List UInt8 → Prop
  | .uint, _, rest => ∀ ds rest', Postcard.digits rest = some (ds, rest') →
      Postcard.number ds < 2 ^ 64
  | .raw length, offset, _ => offset + length < 2 ^ 31
  | .bytes, offset, rest | .text, offset, rest =>
    ∀ ds rest', Postcard.digits rest = some (ds, rest') →
      offset + ds.length + Postcard.number ds < 2 ^ 31
  | _, _, _ => True

variable {reader after : Reader} {before rest : List UInt8}

theorem map_eq_ok {α β : Type} {read : Reading α} {f : α → β} {out : β × Reader} :
    (do return f (← read) : Reading β) reader = .ok out ↔
      ∃ value, read reader = .ok (value, out.2) ∧ f value = out.1 := by
  simp only [bind, StateT.bind]
  obtain ⟨value, _⟩ := out
  cases read reader with
  | error e => simp [Except.bind]
  | ok got =>
    obtain ⟨got, reader'⟩ := got
    have hpure : (pure (f got) : Reading β) reader' = .ok (f got, reader') := rfl
    simp only [Except.bind, hpure, Except.ok.injEq, Prod.mk.injEq]
    constructor
    · rintro ⟨rfl, rfl⟩; exact ⟨got, ⟨rfl, rfl⟩, rfl⟩
    · rintro ⟨value, ⟨rfl, rfl⟩, rfl⟩; exact ⟨rfl, rfl⟩

theorem flag_eq_ok (h : reader.At before rest) {out : Bool × Reader} : flag reader = .ok out ↔
      ∃ rest', rest = flag out.1 ++ rest' ∧ out.2 = reader.after 1 := by
  constructor
  · intro hread
    cases hbyte : byte reader with
    | error e =>
      simp only [Reading.flag, Bind.bind, StateT.bind, hbyte] at hread; cases hread
    | ok got =>
      obtain ⟨byte, after⟩ := got
      obtain ⟨rest', hrest, hafter⟩ := (byte_eq_ok h).1 hbyte
      simp only at hrest hafter
      simp only [Reading.flag, Bind.bind, StateT.bind, hbyte, Except.bind] at hread
      by_cases hlarge : byte > 1
      · rw [if_pos hlarge] at hread; cases hread
      · rw [if_neg hlarge] at hread
        have hcases : byte = 0 ∨ byte = 1 := by
          have hle : byte.toNat ≤ 1 := UInt8.le_iff_toNat_le.1 (UInt8.not_lt.1 hlarge)
          rw [← UInt8.toNat_inj, ← UInt8.toNat_inj]
          simp only [UInt8.toNat_zero, UInt8.toNat_one]; omega
        rcases hcases with rfl | rfl
        · cases hread; exact ⟨rest', hrest, hafter⟩
        · cases hread; exact ⟨rest', hrest, hafter⟩
  · rintro ⟨rest', rfl, hafter⟩
    have hread := reads_flag out.1 h
    rw [Postcard.flag, length_singleton, ← hafter] at hread; exact hread

theorem of_bytes_eq_ok (h : reader.At before rest) (hfits : Kind.Fits .bytes before.length rest)
    {out : List UInt8 × Reader} (hread : bytes reader = .ok out) : ∃ ds rest', digits rest = some (ds,
    out.1 ++ rest') ∧ number ds = out.1.length ∧ out.2 = reader.after (ds.length + out.1.length) := by
  cases huint : uint reader with
  | error e =>
    simp only [Reading.bytes, Bind.bind, StateT.bind, huint] at hread; cases hread
  | ok got =>
    obtain ⟨ds, rest', hdigs, -, rfl⟩ := (uint_eq_ok h).1 huint
    have hbound := hfits ds rest' hdigs
    simp only [Reading.bytes, Bind.bind, StateT.bind, huint, Except.bind] at hread
    have hnum : i32 (UInt64.ofNat (Postcard.number ds)).toNat = Postcard.number ds := by
      rw [toNat_ofNat', Nat.mod_eq_of_lt (by omega)]; exact i32_of_lt (by omega) (by omega)
    rw [append_of_digits hdigs] at h
    rw [hnum, raw_eq_ok h.after (by rw [length_append]; omega)] at hread
    obtain ⟨rest'', rfl, _, hafter⟩ := hread
    rw [Reader.after_after] at hafter; exact ⟨ds, rest'', hdigs, by omega, hafter⟩

theorem of_u256_eq_ok (h : reader.At before rest) {out : U256 × Reader} (hread : u256 reader =
    .ok out) : ∃ rest', rest = out.1.bytes ++ rest' ∧ out.2 = reader.after 32 := by
  have hmax := h.length_le
  rw [blockMaxSize] at hmax
  cases hraw : raw 32 reader with
  | error e =>
    simp only [u256, bind, StateT.bind, hraw] at hread; cases hread
  | ok got =>
    obtain ⟨rest', hrest, _, hafter⟩ := (raw_eq_ok h (by omega)).1 hraw
    have hexact : got.1.length = 32 := by omega
    simp only [u256, bind, StateT.bind, hraw, Except.bind, dif_pos hexact] at hread
    cases hread; rw [hexact] at hafter; exact ⟨rest', hrest, hafter⟩

theorem read_denotes (h : reader.At before rest) {kind : Kind}
    (hfits : kind.Fits before.length rest) (hread : kind.read reader = .ok (value, after)) :
    ∃ consumed rest', rest = consumed ++ rest' ∧ after = reader.after consumed.length ∧ value.kind =
    kind ∧ value.Denotes consumed ∧ (kind.Canonical consumed → value.encode = consumed) := by
  cases kind with
  | byte =>
    obtain ⟨b, hbyte, rfl⟩ := map_eq_ok.1 hread
    obtain ⟨rest', hrest, hafter⟩ := (byte_eq_ok h).1 hbyte
    exact ⟨[b], rest', hrest, hafter, rfl, rfl, fun _ => rfl⟩
  | uint =>
    obtain ⟨_, huint, rfl⟩ := map_eq_ok.1 hread
    obtain ⟨ds, rest', hdigs, -, heq⟩ := (uint_eq_ok h).1 huint
    cases heq
    have hnum : (ofNat (number ds)).toNat = number ds := by
      rw [toNat_ofNat', Nat.mod_eq_of_lt (hfits ds rest' hdigs)]
    have hself : digits ds = some (ds, []) := by
      have := digits_append hdigs []; rwa [append_nil] at this
    refine ⟨ds, rest', append_of_digits hdigs, rfl, rfl, ⟨hself, hnum.symm⟩, ?_⟩
    intro hcanon; rw [Value.encode, hnum]; exact varint_number hdigs (hcanon ds [] hself)
  | flag =>
    obtain ⟨b, hflag, rfl⟩ := map_eq_ok.1 hread
    obtain ⟨rest', hrest, hafter⟩ := (flag_eq_ok h).1 hflag
    exact ⟨flag b, rest', hrest, hafter, rfl, rfl, fun _ => rfl⟩
  | raw length =>
    obtain ⟨got, hraw, rfl⟩ := map_eq_ok.1 hread
    have hbound : before.length + length < 2 ^ 31 := hfits
    obtain ⟨rest', hrest, hlen, hafter⟩ := (raw_eq_ok h (by omega)).1 hraw
    have hlen' : got.length = length := by
      simp only at hlen; omega
    exact ⟨got, rest', hrest, hafter, by rw [Value.kind, hlen'], rfl, fun _ => rfl⟩
  | bytes =>
    obtain ⟨got, hbytes, rfl⟩ := map_eq_ok.1 hread
    obtain ⟨ds, rest', hdigs, hnum, hafter⟩ := of_bytes_eq_ok h hfits hbytes
    have hself := digits_append hdigs got
    refine ⟨ds ++ got, rest', ?_, ?_, rfl, ⟨ds, hself, hnum⟩, ?_⟩
    · rw [append_of_digits hdigs, append_assoc]
    · rw [length_append]; exact hafter
    · intro hcanon
      rw [Value.encode, Postcard.bytes, ← hnum, Postcard.varint_number hdigs (hcanon ds got hself)]
  | text =>
    obtain ⟨_, htext, rfl⟩ := map_eq_ok.1 hread
    obtain ⟨got, hbytes, rfl⟩ := map_eq_ok.1 htext
    obtain ⟨ds, rest', hdigs, hnum, hafter⟩ := of_bytes_eq_ok h hfits hbytes
    have hself := digits_append hdigs got
    refine ⟨ds ++ got, rest', ?_, ?_, rfl, ⟨ds, got, hself, hnum, rfl⟩, ?_⟩
    · rw [append_of_digits hdigs, append_assoc]
    · rw [length_append]; exact hafter
    · intro hcanon
      obtain ⟨hshortest, _, hchars⟩ := hcanon ds got hself
      have hutf8 : utf8 (Wasm.text got) = got := by rw [hchars, text_utf8]
      rw [Value.encode, hutf8, Postcard.bytes, ← hnum, Postcard.varint_number hdigs hshortest]
  | u256 =>
    obtain ⟨got, hu256, rfl⟩ := map_eq_ok.1 hread
    obtain ⟨rest', hrest, hafter⟩ := of_u256_eq_ok h hu256
    exact ⟨got.bytes, rest', hrest, by rw [got.exact32]; exact hafter, rfl, rfl, fun _ => rfl⟩

end Leani.Wasm.AssemblyScript
