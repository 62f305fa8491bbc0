import Mathlib.Algebra.Ring.Nat
import Mathlib.Tactic.Common

/-!
# Texts

Bytes in hexadecimal, bytes read as UTF-8 with replacement characters, and texts quoted as JSON
strings.
-/

namespace Library

open List

namespace Hex

def digit (n : Nat) : Char := "0123456789abcdef".toList.getD n '0'

def encode (bytes : List UInt8) : List Char :=
  bytes.flatMap fun byte => [digit (byte.toNat / 16), digit (byte.toNat % 16)]

theorem digit_injective {m n : Nat} (hm : m < 16) (hn : n < 16) (h : digit m = digit n) : m = n := by
  have hall : ∀ m < 16, ∀ n < 16, digit m = digit n → m = n := by decide +kernel
  exact hall m hm n hn h

theorem encode_injective {as bs : List UInt8} (h : encode as = encode bs) : as = bs := by
  induction as generalizing bs with
  | nil =>
    cases bs with
    | nil => rfl
    | cons byte bs => cases h
  | cons a as ih =>
    cases bs with
    | nil => cases h
    | cons b bs =>
      simp only [encode, flatMap_cons, cons_append, nil_append, cons.injEq] at h
      obtain ⟨hhigh, hlow, hrest⟩ := h
      have ha := a.toNat_lt
      have hb := b.toNat_lt
      have hhigh' := digit_injective (by omega) (by omega) hhigh
      have hlow' := digit_injective (by omega) (by omega) hlow
      have heq : a = b := UInt8.toNat_inj.1 (by omega); rw [heq, ih hrest]

end Hex

namespace Utf8

def encode (chars : List Char) : List UInt8 := chars.flatMap String.utf8EncodeChar

def replacement : Char := '\ufffd'

def sequence (lead : Nat) : Option (Nat × Nat × Nat) :=
  if 0xc2 ≤ lead ∧ lead ≤ 0xdf then some (2, 0x80, 0xbf)
  else if lead = 0xe0 then some (3, 0xa0, 0xbf)
  else if lead = 0xed then some (3, 0x80, 0x9f)
  else if 0xe1 ≤ lead ∧ lead ≤ 0xef then some (3, 0x80, 0xbf)
  else if lead = 0xf0 then some (4, 0x90, 0xbf)
  else if lead = 0xf4 then some (4, 0x80, 0x8f)
  else if 0xf1 ≤ lead ∧ lead ≤ 0xf3 then some (4, 0x80, 0xbf)
  else none

def continue_ : Nat → Nat → Nat → Nat → List UInt8 → Nat × Nat × List UInt8
  | 0, _, _, point, rest => (0, point, rest)
  | missing + 1, _, _, point, [] => (missing + 1, point, [])
  | missing + 1, low, high, point, next :: rest =>
    if low ≤ next.toNat ∧ next.toNat ≤ high then
      continue_ missing 0x80 0xbf (point * 64 + next.toNat % 64) rest
    else (missing + 1, point, next :: rest)

theorem length_continue_ {missing low high point : Nat} {rest : List UInt8} :
    (continue_ missing low high point rest).2.2.length ≤ rest.length := by
  induction missing generalizing low high point rest with
  | zero => exact le_rfl
  | succ missing ih =>
    cases rest with
    | nil => exact le_rfl
    | cons next rest =>
      simp only [continue_]
      split
      · have := @ih 0x80 0xbf (point * 64 + next.toNat % 64) rest; simp only [length_cons]; omega
      · exact le_rfl

def lossy : List UInt8 → List Char
  | [] => []
  | lead :: rest =>
    if lead.toNat < 0x80 then Char.ofNat lead.toNat :: lossy rest
    else
      match sequence lead.toNat with
      | none => replacement :: lossy rest
      | some (length, low, high) =>
        let out := continue_ (length - 1) low high (lead.toNat % 2 ^ (7 - length)) rest
        (if out.1 = 0 then Char.ofNat out.2.1 else replacement) :: lossy out.2.2
termination_by bytes => bytes.length
decreasing_by
  · exact Nat.lt_succ_self _
  · exact Nat.lt_succ_self _
  · exact Nat.lt_succ_of_le length_continue_

end Utf8

namespace Json

def escape (char : Char) : List Char :=
  if char = '"' then ['\\', '"']
  else if char = '\\' then ['\\', '\\']
  else if char.toNat = 8 then ['\\', 'b']
  else if char.toNat = 9 then ['\\', 't']
  else if char.toNat = 10 then ['\\', 'n']
  else if char.toNat = 12 then ['\\', 'f']
  else if char.toNat = 13 then ['\\', 'r']
  else if char.toNat < 32 then
    ['\\', 'u', '0', '0', Hex.digit (char.toNat / 16), Hex.digit (char.toNat % 16)]
  else [char]

def quote (text : List Char) : List Char := '"' :: (text.flatMap escape ++ ['"'])

variable {char : Char}

theorem escape_of_le (h : 93 ≤ char.toNat) : escape char = [char] := by
  have hne : ∀ c : Char, c.toNat < 93 → char ≠ c := by
    rintro c _ rfl; omega
  rw [escape, if_neg (hne _ (by decide)), if_neg (hne _ (by decide)), if_neg (by omega),
    if_neg (by omega), if_neg (by omega), if_neg (by omega), if_neg (by omega), if_neg (by omega)]

theorem escape_eq_cons (char : Char) : ∃ first rest, escape char = first :: rest ∧
    (93 ≤ char.toNat → first = char ∧ rest = []) ∧ (char.toNat < 93 → first.toNat < 93) := by
  by_cases h : 93 ≤ char.toNat
  · exact ⟨char, [], escape_of_le h, fun _ => ⟨rfl, rfl⟩, fun _ => by omega⟩
  · have hsmall : ∀ m < 93, ((escape (Char.ofNat m)).head?.any fun c => c.toNat < 93) = true := by
      decide +kernel
    have hfirst := hsmall char.toNat (by omega)
    rw [Char.ofNat_toNat] at hfirst
    cases hescape : escape char with
    | nil =>
      rw [hescape] at hfirst; cases hfirst
    | cons first rest =>
      rw [hescape, head?_cons, Option.any_some, decide_eq_true_iff] at hfirst
      exact ⟨first, rest, rfl, fun hle => absurd hle h, fun _ => hfirst⟩

theorem eq_of_escape_isPrefix {a b : Char} (h : escape a <+: escape b) : a = b := by
  have hsmall : ∀ m < 93, ∀ n < 93,
      (escape (Char.ofNat m)).isPrefixOf (escape (Char.ofNat n)) = true → m = n := by
    decide +kernel
  obtain ⟨a', _, ha, halarge, hasmall⟩ := escape_eq_cons a
  obtain ⟨b', _, hb, hblarge, hbsmall⟩ := escape_eq_cons b
  have hfst : a' = b' := by
    rw [ha, hb] at h
    obtain ⟨_, hrest⟩ := h; exact (cons.inj hrest).1
  by_cases hale : 93 ≤ a.toNat
  · by_cases hble : 93 ≤ b.toNat
    · rw [← (halarge hale).1, ← (hblarge hble).1, hfst]
    · have := hbsmall (by omega); rw [← hfst, (halarge hale).1] at this; omega
  · by_cases hble : 93 ≤ b.toNat
    · have := hasmall (by omega); rw [hfst, (hblarge hble).1] at this; omega
    · have hstart : (escape (Char.ofNat a.toNat)).isPrefixOf (escape (Char.ofNat b.toNat)) = true := by
        rw [Char.ofNat_toNat, Char.ofNat_toNat]; exact isPrefixOf_iff_prefix.2 h
      have heq := hsmall _ (by omega) _ (by omega) hstart
      rw [← Char.ofNat_toNat a, heq, Char.ofNat_toNat]

theorem escape_append_inj {a b : Char} {as bs : List Char}
    (h : escape a ++ as = escape b ++ bs) : a = b ∧ as = bs := by
  have heq : a = b := by
    rcases prefix_or_prefix_of_prefix (prefix_append (escape a) as)
        (h ▸ prefix_append (escape b) bs) with hstart | hstart
    · exact eq_of_escape_isPrefix hstart
    · exact (eq_of_escape_isPrefix hstart).symm
  subst heq; exact ⟨rfl, append_cancel_left h⟩

theorem escape_ne_quote {rest rest' : List Char} : escape char ++ rest ≠ '"' :: rest' := by
  intro h
  have hquote : ∀ m < 93, (escape (Char.ofNat m)).head? ≠ some '"' := by decide +kernel
  obtain ⟨_, _, hescape, hlarge, -⟩ := escape_eq_cons char
  rw [hescape, cons_append, cons.injEq] at h
  by_cases hle : 93 ≤ char.toNat
  · have hfirst := (hlarge hle).1
    rw [h.1] at hfirst; rw [← hfirst] at hle; exact absurd hle (by decide)
  · refine hquote char.toNat (by omega) ?_
    rw [Char.ofNat_toNat, hescape, h.1]; rfl

theorem quote_append_inj {as bs rest rest' : List Char}
    (h : quote as ++ rest = quote bs ++ rest') : as = bs ∧ rest = rest' := by
  rw [quote, quote, cons_append, cons_append, cons.injEq, append_assoc,
    append_assoc, singleton_append, singleton_append] at h
  replace h := h.2
  induction as generalizing bs with
  | nil =>
    cases bs with
    | nil =>
      rw [flatMap_nil, nil_append, nil_append] at h; exact ⟨rfl, (cons.inj h).2⟩
    | cons b bs =>
      rw [flatMap_nil, nil_append, flatMap_cons, append_assoc] at h
      exact absurd h.symm escape_ne_quote
  | cons a as ih =>
    cases bs with
    | nil =>
      rw [flatMap_nil, nil_append, flatMap_cons, append_assoc] at h; exact absurd h escape_ne_quote
    | cons b bs =>
      rw [flatMap_cons, flatMap_cons, append_assoc, append_assoc] at h
      obtain ⟨rfl, htexts⟩ := escape_append_inj h
      obtain ⟨has, hrest⟩ := ih htexts; exact ⟨congrArg _ has, hrest⟩

theorem cons_intercalate {texts : List (List Char)} (h : texts ≠ []) :
    ',' :: [','].intercalate texts = texts.flatMap fun text => ',' :: text := by
  induction texts with
  | nil => exact absurd rfl h
  | cons text texts ih =>
    cases texts with
    | nil => simp
    | cons next texts =>
      rw [intercalate_cons_cons, flatMap_cons, ← ih (cons_ne_nil _ _)]; simp

section

variable {α β : Type} {f : α → List Char} {g : α → β} {close : Char} {as bs : List α}
  {rest rest' : List Char}

def Items (f : α → List Char) (g : α → β) (as bs : List α) : Prop :=
  ∀ a ∈ as, ∀ b ∈ bs, ∀ {rest rest' : List Char}, f a ++ rest = f b ++ rest' →
    g a = g b ∧ rest = rest'

theorem flatMap_append_inj (hclose : close ≠ ',') (hitems : Items f g as bs)
    (h : (as.flatMap fun a => ',' :: f a) ++ close :: rest =
      (bs.flatMap fun b => ',' :: f b) ++ close :: rest') : as.map g = bs.map g ∧ rest = rest' := by
  induction as generalizing bs with
  | nil =>
    cases bs with
    | nil => exact ⟨rfl, (cons.inj h).2⟩
    | cons b bs => exact absurd (cons.inj h).1 hclose
  | cons a as ih =>
    cases bs with
    | nil => exact absurd (cons.inj h).1.symm hclose
    | cons b bs =>
      rw [flatMap_cons, flatMap_cons, cons_append, cons_append, cons_append,
        cons_append, append_assoc, append_assoc] at h
      obtain ⟨hval, htail⟩ :=
        hitems a mem_cons_self b mem_cons_self (cons.inj h).2
      obtain ⟨hvals, hrest⟩ := ih (fun a' ha b' hb => hitems a' (mem_cons_of_mem _ ha) b'
        (mem_cons_of_mem _ hb)) htail
      exact ⟨by rw [map_cons, map_cons, hval, hvals], hrest⟩

theorem intercalate_append_inj (hclose : close ≠ ',') (hitems : Items f g as bs)
    (has : ∀ a ∈ as, ∀ rest rest', f a ++ rest ≠ close :: rest') (hbs : ∀ b ∈ bs,
    ∀ rest rest', f b ++ rest ≠ close :: rest') (h : [','].intercalate (as.map f) ++ close :: rest =
    [','].intercalate (bs.map f) ++ close :: rest') : as.map g = bs.map g ∧ rest = rest' := by
  have hfirst : ∀ {a : α} {as : List α} {rest : List Char}, ∃ others,
      [','].intercalate ((a :: as).map f) ++ rest = f a ++ others := by
    intro a as rest
    cases as with
    | nil => exact ⟨rest, by simp⟩
    | cons next as =>
      refine ⟨',' :: ([','].intercalate ((next :: as).map f) ++ rest), ?_⟩
      rw [map_cons, map_cons, intercalate_cons_cons]; simp
  cases as with
  | nil =>
    cases bs with
    | nil => exact ⟨rfl, (cons.inj h).2⟩
    | cons b bs =>
      obtain ⟨others, hothers⟩ := @hfirst b bs (close :: rest')
      rw [hothers] at h; exact absurd h.symm (hbs b mem_cons_self _ _)
  | cons a as =>
    cases bs with
    | nil =>
      obtain ⟨others, hothers⟩ := @hfirst a as (close :: rest)
      rw [hothers] at h; exact absurd h (has a mem_cons_self _ _)
    | cons b bs =>
      refine flatMap_append_inj hclose hitems ?_
      have hcomma := congrArg (cons ',') h
      rw [← cons_append, ← cons_append, cons_intercalate (by simp),
        cons_intercalate (by simp), flatMap_map, flatMap_map] at hcomma
      exact hcomma

end

end Json

end Library
