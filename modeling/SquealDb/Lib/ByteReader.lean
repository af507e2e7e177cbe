import Mathlib.Data.List.Basic

/-!
# Readers of bytes

A reader has a byte string and a position in it; it gives a value and moves the
position on, or fails.  `Reads m enc a` says that wherever `enc` stands, `m`
started there gives `a` and stops right behind it, whatever surrounds it.
Sequencing readers is appending what they read.

Nothing in this module names a particular format.

A reader is steady when bytes that follow what it reads do not change what it gives; an
encoding cut short is then no encoding.
-/

namespace SquealDb.Lib

variable {α β : Type}

/-- A reader of bytes. -/
abbrev ByteReader := ReaderT (List UInt8) (StateT Nat Option)

namespace ByteReader

/-- The next `n` bytes. -/
def take (n : Nat) : ByteReader (List UInt8) := fun bytes pos =>
  if pos + n ≤ bytes.length then some ((bytes.drop pos).take n, pos + n) else none

/-- The next byte. -/
def byte : ByteReader UInt8 := fun bytes pos =>
  match bytes[pos]? with
  | some b => some (b, pos + 1)
  | none => none

end ByteReader

/-- Started where `enc` stands, the reader gives `a` and stops behind it. -/
def Reads (m : ByteReader α) (enc : List UInt8) (a : α) : Prop :=
  ∀ before after, m (before ++ (enc ++ after)) before.length =
    some (a, before.length + enc.length)

theorem Reads.pure (a : α) : Reads (Pure.pure a) [] a := fun _ _ => rfl

theorem Reads.bind {m : ByteReader α} {f : α → ByteReader β} {enc enc' : List UInt8} {a : α} {b : β}
    (hm : Reads m enc a) (hf : Reads (f a) enc' b) : Reads (m >>= f) (enc ++ enc') b := by
  intro before after
  have hfirst : m (before ++ (enc ++ enc' ++ after)) before.length =
      some (a, before.length + enc.length) := by
    rw [List.append_assoc]
    exact hm before (enc' ++ after)
  have hsecond : f a (before ++ (enc ++ enc' ++ after)) (before.length + enc.length) =
      some (b, before.length + enc.length + enc'.length) := by
    have hf' := hf (before ++ enc) after
    rwa [List.length_append, List.append_assoc, ← List.append_assoc enc] at hf'
  show (m (before ++ (enc ++ enc' ++ after)) before.length).bind
    (fun p => f p.1 (before ++ (enc ++ enc' ++ after)) p.2) = _
  rw [hfirst, Option.bind_some, hsecond, List.length_append, Nat.add_assoc]

theorem Reads.map {m : ByteReader α} {enc : List UInt8} {a : α} (hm : Reads m enc a) (f : α → β) :
    Reads (m >>= fun a => Pure.pure (f a)) enc (f a) := by
  have hb := hm.bind (f := fun a => Pure.pure (f a)) (Reads.pure (f a))
  rwa [List.append_nil] at hb

theorem Reads.byte (b : UInt8) : Reads ByteReader.byte [b] b := by
  intro before after
  have hget : (before ++ ([b] ++ after))[before.length]? = some b := by simp
  rw [ByteReader.byte, hget]
  rfl

/-- A byte, and what is read depending on it. -/
theorem Reads.byte_bind {b : UInt8} {f : UInt8 → ByteReader α} {enc : List UInt8} {a : α}
    (h : Reads (f b) enc a) : Reads (ByteReader.byte >>= f) (b :: enc) a :=
  (Reads.byte b).bind h

theorem Reads.take (bytes : List UInt8) : Reads (ByteReader.take bytes.length) bytes bytes := by
  intro before after
  have hle : before.length + bytes.length ≤ (before ++ (bytes ++ after)).length := by
    simp only [List.length_append]
    omega
  rw [ByteReader.take, if_pos hle, List.drop_left, List.take_left]

/-- What the reader gives stays when bytes are appended, and lies within the bytes. -/
def Steady (m : ByteReader α) : Prop :=
  ∀ bytes more pos a q, m bytes pos = some (a, q) →
    m (bytes ++ more) pos = some (a, q) ∧ (pos ≤ bytes.length → q ≤ bytes.length)

namespace Steady

theorem pure (a : α) : Steady (Pure.pure a) := by
  intro bytes more pos b q h
  obtain ⟨rfl, rfl⟩ := Prod.mk.inj (Option.some.inj h)
  exact ⟨rfl, fun hle => hle⟩

theorem failure : Steady (failure : ByteReader α) := by
  intro bytes more pos b q h
  cases h

theorem bind {m : ByteReader α} {f : α → ByteReader β} (hm : Steady m)
    (hf : ∀ a, Steady (f a)) : Steady (m >>= f) := by
  intro bytes more pos b q h
  change (m bytes pos).bind (fun p => f p.1 bytes p.2) = some (b, q) at h
  obtain ⟨⟨a, mid⟩, hfirst, hsecond⟩ := Option.bind_eq_some_iff.mp h
  obtain ⟨hfirst', hmid⟩ := hm bytes more pos a mid hfirst
  obtain ⟨hsecond', hend⟩ := hf a bytes more mid b q hsecond
  constructor
  · show (m (bytes ++ more) pos).bind (fun p => f p.1 (bytes ++ more) p.2) = some (b, q)
    rw [hfirst', Option.bind_some, hsecond']
  · exact fun hle => hend (hmid hle)

theorem byte : Steady ByteReader.byte := by
  intro bytes more pos b q h
  unfold ByteReader.byte at h ⊢
  cases hget : bytes[pos]? with
  | none => simp [hget] at h
  | some c =>
    have hlt := (List.getElem?_eq_some_iff.mp hget).1
    rw [hget] at h
    obtain ⟨rfl, rfl⟩ := Prod.mk.inj (Option.some.inj h)
    rw [List.getElem?_append_left hlt, hget]
    exact ⟨rfl, fun _ => hlt⟩

theorem take (n : Nat) : Steady (ByteReader.take n) := by
  intro bytes more pos b q h
  unfold ByteReader.take at h ⊢
  split at h
  case isFalse => cases h
  case isTrue hle =>
    have hle' : pos + n ≤ (bytes ++ more).length := by
      rw [List.length_append]
      omega
    obtain ⟨rfl, rfl⟩ := Prod.mk.inj (Option.some.inj h)
    have hcontent : ((bytes ++ more).drop pos).take n = (bytes.drop pos).take n := by
      rw [List.drop_append_of_le_length (by omega), List.take_append_of_le_length]
      rw [List.length_drop]
      omega
    rw [if_pos hle', hcontent]
    exact ⟨rfl, fun _ => hle⟩

/-- An encoding cut short is not read. -/
theorem cut {m : ByteReader α} {enc start more : List UInt8} {a : α} (hm : Steady m)
    (h : Reads m enc a) (henc : start ++ more = enc) (hmore : more ≠ []) : m start 0 = none := by
  cases hread : m start 0 with
  | none => rfl
  | some found =>
    obtain ⟨b, q⟩ := found
    obtain ⟨hwhole, hq⟩ := hm start more 0 b q hread
    have hreads : m enc 0 = some (a, enc.length) := by
      have hreads := h [] []
      rwa [List.nil_append, List.append_nil, List.length_nil, Nat.zero_add] at hreads
    rw [henc, hreads] at hwhole
    have hlen : enc.length = q := (Prod.mk.inj (Option.some.inj hwhole)).2
    have hle := hq (Nat.zero_le _)
    have hpos := List.length_pos_of_ne_nil hmore
    rw [← henc, List.length_append] at hlen
    omega

end Steady

end SquealDb.Lib
