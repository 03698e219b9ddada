import Mathlib.Algebra.GroupWithZero.Nat
import Mathlib.Data.List.Basic

/-!
# Readers of bytes

A reader takes bytes from the front of what remains, and knows how many it has taken. Numbers are
little-endian.

* `Reads g p bytes a`: on `bytes`, whatever follows, the reader `p` gives `a` and takes all of them,
  if `g` holds. If it does not, the reader may fail, but it gives nothing else.
* `Reads.bind`: a reader after another one.
* `Reads.loop`: a reader for every element of a list, which sees the elements before it.
-/

namespace BeeLlama

open List

/-- The `k` lowest bytes of a number. -/
def le : Nat → Nat → List UInt8
  | 0, _ => []
  | k + 1, n => UInt8.ofNat n :: le k (n / 256)

/-- The number of some bytes. -/
def ofLe : List UInt8 → Nat
  | [] => 0
  | b :: bs => b.toNat + 256 * ofLe bs

@[simp] theorem length_le (k n : Nat) : (le k n).length = k := by
  induction k generalizing n with
  | zero => rfl
  | succ k ih => exact congrArg Nat.succ (ih _)

theorem ofLe_le_mod (k n : Nat) : ofLe (le k n) = n % 256 ^ k := by
  induction k generalizing n with
  | zero => exact (Nat.mod_one n).symm
  | succ k ih =>
    calc ofLe (le (k + 1) n) = n % 256 + 256 * (n / 256 % 256 ^ k) := by
          rw [le, ofLe, ih, UInt8.toNat_ofNat']
      _ = n % (256 * 256 ^ k) := Nat.mod_mul.symm
      _ = n % 256 ^ (k + 1) := by rw [Nat.pow_succ']

theorem le_ofLe (bs : List UInt8) : le bs.length (ofLe bs) = bs := by
  induction bs with
  | nil => rfl
  | cons b bs ih =>
    have hlt := b.toNat_lt
    have hdiv : (b.toNat + 256 * ofLe bs) / 256 = ofLe bs := by omega
    have hmod : UInt8.ofNat (b.toNat + 256 * ofLe bs) = b := by
      apply UInt8.toNat_inj.mp
      rw [UInt8.toNat_ofNat']
      omega
    rw [length_cons, le, ofLe, hdiv, hmod, ih]

theorem ofLe_lt (bs : List UInt8) : ofLe bs < 256 ^ bs.length := by
  induction bs with
  | nil => simp [ofLe]
  | cons b bs ih =>
    have hlt := b.toNat_lt
    rw [ofLe, length_cons, Nat.pow_succ]
    omega

/-- Where a reader is, and the bytes that remain. -/
structure ByteSource where
  offset : Nat
  rest : List UInt8

/-- A reader. -/
abbrev ByteReader := StateT ByteSource Option

namespace ByteReader

/-- The next `n` bytes. -/
def bytes (n : Nat) : ByteReader (List UInt8) := fun s =>
  if n ≤ s.rest.length then some (s.rest.take n, ⟨s.offset + n, s.rest.drop n⟩) else none

/-- A number of `k` bytes. -/
def number (k : Nat) : ByteReader Nat := do return ofLe (← bytes k)

theorem bind_run {α β : Type} {p : ByteReader α} {f : α → ByteReader β} {s s' : ByteSource} {a : α}
    (h : p s = some (a, s')) : (p >>= f) s = f a s' := by
  change (p s).bind (fun r => f r.1 r.2) = _
  rw [h]
  rfl

theorem bind_eq_some {α β : Type} {p : ByteReader α} {f : α → ByteReader β} {s : ByteSource}
    {r : β × ByteSource} (h : (p >>= f) s = some r) :
    ∃ a s', p s = some (a, s') ∧ f a s' = some r := by
  obtain ⟨⟨a, s'⟩, ha, hf⟩ := Option.bind_eq_some_iff.mp h
  exact ⟨a, s', ha, hf⟩

/-- A number that was read stood in front. -/
theorem number_eq_some {k n : Nat} {s s' : ByteSource} (h : number k s = some (n, s')) :
    n < 256 ^ k ∧ s.rest = le k n ++ s'.rest := by
  change ((if k ≤ s.rest.length then _ else _ : Option (List UInt8 × ByteSource)).bind fun r =>
    some (ofLe r.1, r.2)) = _ at h
  split at h
  · rename_i hk
    cases h
    have hlen : (s.rest.take k).length = k := by rw [length_take]; omega
    have hlt := ofLe_lt (s.rest.take k)
    have hle := le_ofLe (s.rest.take k)
    rw [hlen] at hlt hle
    exact ⟨hlt, by rw [hle]; exact (take_append_drop k s.rest).symm⟩
  · cases h

/-- At least `n` bytes must remain. -/
def checkRemain (n : Nat) : ByteReader Unit := fun s =>
  if n ≤ s.rest.length then some ((), s) else none

/-- The condition must hold. -/
def check (c : Prop) [Decidable c] : ByteReader Unit := fun s => if c then some ((), s) else none

/-- A reader `n` times, after the elements that were read before. -/
def loop {α : Type} (p : List α → ByteReader α) : Nat → List α → ByteReader (List α)
  | 0, acc => pure acc
  | n + 1, acc => do loop p n (acc ++ [← p acc])

end ByteReader

/-- On the bytes the reader gives `a`, if `g` holds, and nothing else otherwise. -/
structure Reads {α : Type} (g : Prop) (p : ByteReader α) (bytes : List UInt8) (a : α) : Prop where
  run : g → ∀ off rest, p ⟨off, bytes ++ rest⟩ = some (a, ⟨off + bytes.length, rest⟩)
  only : ∀ off rest r, p ⟨off, bytes ++ rest⟩ = some r → r = (a, ⟨off + bytes.length, rest⟩)

namespace Reads

open ByteReader

variable {α β : Type} {g o : Prop} {p : ByteReader α} {bs bs' : List UInt8} {a : α}

/-- A reader that succeeds. -/
theorem of_run (h : ∀ off rest, p ⟨off, bs ++ rest⟩ = some (a, ⟨off + bs.length, rest⟩)) :
    Reads g p bs a where
  run _ := h
  only off rest _ hr := Option.some.inj (hr.symm.trans (h off rest))

theorem mono (h : Reads g p bs a) (hok : o → g) : Reads o p bs a :=
  ⟨fun ho => h.run (hok ho), h.only⟩

theorem pure : Reads g (Pure.pure a : ByteReader α) [] a := of_run fun _ _ => rfl

theorem bytes {n : Nat} (hn : bs.length = n) : Reads g (ByteReader.bytes n) bs bs :=
  of_run fun off rest => by
    subst hn
    simp [ByteReader.bytes]

theorem check {c : Prop} [Decidable c] : Reads c (ByteReader.check c) [] () where
  run hc _ _ := if_pos hc
  only off rest r hr := by
    unfold ByteReader.check at hr
    split at hr
    · exact (Option.some.inj hr).symm
    · cases hr

variable {b : β} {q : ByteReader β}

theorem bind {f : α → ByteReader β} (h : Reads g p bs a) (hf : Reads o (f a) bs' b) :
    Reads (g ∧ o) (p >>= f) (bs ++ bs') b where
  run ho off rest := by
    have hrun := h.run ho.1 off (bs' ++ rest)
    have hfrun := hf.run ho.2 (off + bs.length) rest
    rw [append_assoc, length_append, ← Nat.add_assoc]
    change (p ⟨off, bs ++ (bs' ++ rest)⟩).bind (fun r => f r.1 r.2) = _
    rw [hrun]
    exact hfrun
  only off rest r hr := by
    rw [append_assoc] at hr
    obtain ⟨s, hs, hr⟩ := Option.bind_eq_some_iff.mp hr
    obtain rfl := h.only off (bs' ++ rest) s hs
    rw [hf.only _ rest r hr, length_append, Nat.add_assoc]

/-- A reader whose result is used without reading. -/
theorem map {f : α → β} (h : Reads g p bs a) : Reads g (do return f (← p)) bs (f a) := by
  have := h.bind (f := fun a => (Pure.pure (f a) : ByteReader β)) (pure (g := True))
  rw [append_nil] at this
  exact this.mono fun ho => ⟨ho, trivial⟩

theorem number_mod (k n : Nat) : Reads g (ByteReader.number k) (le k n) (n % 256 ^ k) := by
  have := (bytes (g := g) (length_le k n)).map (f := ofLe)
  rwa [ofLe_le_mod] at this

theorem number {k n : Nat} (hn : n < 256 ^ k) : Reads g (ByteReader.number k) (le k n) n := by
  have := number_mod (g := g) k n
  rwa [Nat.mod_eq_of_lt hn] at this

/-- A check before a reader. -/
theorem check_bind {c : Prop} [Decidable c] (h : Reads g q bs b) :
    Reads (c ∧ g) (do ByteReader.check c; q) bs b :=
  check.bind (f := fun _ => q) h

/-- Enough bytes remain if the reader that follows takes them. -/
theorem checkRemain_bind {n : Nat} (h : Reads g q bs b)
    (hn : n ≤ bs.length) : Reads g (do checkRemain n; q) bs b := by
  have hrun : ∀ off rest, (do checkRemain n; q : ByteReader β) ⟨off, bs ++ rest⟩ =
      q ⟨off, bs ++ rest⟩ := fun off rest => by
    have hle : n ≤ (bs ++ rest).length := by
      rw [length_append]
      omega
    change ((if n ≤ (bs ++ rest).length then _ else _ : Option (Unit × ByteSource))).bind
      (fun r => q r.2) = _
    rw [if_pos hle]
    rfl
  exact ⟨fun ho off rest => (hrun off rest).trans (h.run ho off rest),
    fun off rest r hr => h.only off rest r ((hrun off rest).symm.trans hr)⟩

/-- A reader for every element of a list. -/
theorem loop {e : α → List UInt8} {f : α → β} {g : α → Prop} {p : List β → ByteReader β}
    {l : List α}
    (h : ∀ pre x post, l = pre ++ x :: post → Reads (g x) (p (pre.map f)) (e x) (f x)) :
    Reads (∀ x ∈ l, g x) (ByteReader.loop p l.length []) (l.flatMap e) (l.map f) := by
  have key : ∀ pre post, l = pre ++ post →
      Reads (∀ x ∈ post, g x) (ByteReader.loop p post.length (pre.map f)) (post.flatMap e)
        (l.map f) := by
    intro pre post
    induction post generalizing pre with
    | nil =>
      rintro rfl
      rw [append_nil]
      exact pure
    | cons x post ih =>
      intro hl
      have hnext := ih (pre ++ [x]) (hl.trans (append_cons pre x post))
      rw [map_append, map_singleton] at hnext
      refine ((h pre x post hl).bind (f := fun b => ByteReader.loop p post.length
        (pre.map f ++ [b])) hnext).mono fun ho => ?_
      exact ⟨ho x mem_cons_self, fun y hy => ho y (mem_cons_of_mem x hy)⟩
  exact key [] l rfl

end Reads

end BeeLlama
