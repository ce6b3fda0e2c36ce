/-
# LazyBsd.Printf.Buffer — `vprintf`: the buffer between `kvprintf` and the console.

`kvprintf` gives its characters to `kputchar` one by one. Without `PRINTF_BUFR_SIZE` each goes to the
console at once. With it they are collected in a buffer, which `putbuf` hands to `puts` when a newline
comes or only two bytes are left; what is in the buffer at the end is written by `vprintf`. A write
outside the buffer and the assertion on `remain` are `none`.

Over all characters the buffer does nothing but cut the output into pieces (`pieces`).
-/
import Mathlib.Data.List.TakeWhile
import LazyBsd.Printf.Format

namespace LazyBsd.Printf

open LazyBsd.Filter (CString)

/-! ## The code -/

/-- The calls that write. -/
inductive Call
  | putchar (c : Char)
  | puts (s : CString)
  | cnputs (s : CString)
  | msglogstr (s : CString)
  deriving DecidableEq

/-- The buffer and where it is written next: `p_bufr`, `p_next` and `remain`; `n_bufr` is its length. -/
structure Bufr where
  bytes : CString
  next : Nat
  remain : Nat

/-- A store to the buffer. -/
def store (b : Bufr) (i : Nat) (c : Char) : Option Bufr :=
  if i < b.bytes.length then some { b with bytes := b.bytes.set i c } else none

/-- Store the character and the NUL behind it. -/
def Bufr.put (b : Bufr) (c : Char) : Option Bufr :=
  (store b b.next c).bind fun b =>
    store { b with next := b.next + 1, remain := b.remain - 1 } (b.next + 1) '\x00'

/-- Start again with an empty buffer. -/
def Bufr.restart (b : Bufr) : Option Bufr :=
  store { b with next := 0, remain := b.bytes.length } 0 '\x00'

variable {cap : Nat} {pending s : CString} {c : Char}

/-- The output cut into pieces that a newline ends or that have `cap` characters, and the rest. -/
def pieces (cap : Nat) (pending : CString) : CString → List CString × CString
  | [] => ([], pending)
  | c :: s =>
      if (pending ++ [c]).length = cap ∨ c = '\n' then
        ((pending ++ [c]) :: (pieces cap [] s).1, (pieces cap [] s).2)
      else pieces cap (pending ++ [c]) s

/-- A piece is full or ends with a newline, and no piece is longer or goes on behind a newline. -/
theorem mem_pieces (hcap : pending.length < cap) (hline : '\n' ∉ pending) {p : CString}
    (h : p ∈ (pieces cap pending s).1) :
    p.length ≤ cap ∧ (p.length = cap ∨ p.getLast? = some '\n') ∧ '\n' ∉ p.dropLast := by
  induction s generalizing pending with
  | nil => cases h
  | cons c s ih =>
      unfold pieces at h
      split at h
      · rename_i hflush
        rcases List.mem_cons.mp h with rfl | hrest
        · rw [List.length_append, List.length_singleton] at hflush ⊢
          refine ⟨hcap, hflush.imp id fun hc => ?_, ?_⟩
          · rw [hc, List.getLast?_append]
            rfl
          · rwa [List.dropLast_concat]
        · exact ih (by rw [List.length_nil]; omega) List.not_mem_nil hrest
      · rename_i hmore
        rw [List.length_append, List.length_singleton, not_or] at hmore
        refine ih ?_ ?_ h
        · rw [List.length_append, List.length_singleton]
          omega
        · simpa [hline] using Ne.symm hmore.2

/-- **The buffer between two characters**: what is pending stands at its start, with a NUL behind it, and
more than two bytes are left. -/
structure Holds (b : Bufr) (pending : CString) (n : Nat) : Prop where
  length : b.bytes.length = n
  next : b.next = pending.length
  remain : b.next + b.remain = n
  room : 2 < b.remain
  bytes : ∃ old, b.bytes = pending ++ '\x00' :: old

variable {b : Bufr} {n : Nat}

theorem set_append {old : CString} {x : Char} :
    (pending ++ x :: old).set pending.length c = pending ++ c :: old := by
  rw [List.set_append_right _ _ (Nat.le_refl _), Nat.sub_self, List.set_cons_zero]

/-- The character is stored in front of a new NUL. -/
theorem Holds.put (h : Holds b pending n) :
    ∃ b', b.put c = some b' ∧ b'.bytes.length = n ∧ b'.next = (pending ++ [c]).length ∧
      b'.next + b'.remain = n ∧ 2 ≤ b'.remain ∧ ∃ old, b'.bytes = pending ++ [c] ++ '\x00' :: old := by
  obtain ⟨hlength, hnext, hremain, hroom, old, hbytes⟩ := h
  rcases old with _ | ⟨x, old⟩
  · rw [hbytes, List.length_append, List.length_singleton] at hlength
    omega
  · have hfirst : store b b.next c = some { b with bytes := pending ++ c :: x :: old } := by
      rw [store, if_pos (by omega), hbytes, hnext, set_append]
    have hsplit : pending ++ c :: x :: old = (pending ++ [c]) ++ x :: old := by simp
    have hindex : b.next + 1 = (pending ++ [c]).length := by
      rw [List.length_append, List.length_singleton, hnext]
    have htotal : (pending ++ c :: x :: old).length = n := by
      rw [← hlength, hbytes]
      simp
    refine ⟨⟨pending ++ [c] ++ '\x00' :: old, b.next + 1, b.remain - 1⟩, ?_, ?_, hindex, ?_, ?_, old, rfl⟩
    · rw [Bufr.put, hfirst, Option.bind_some, store, if_pos (by dsimp only; rw [htotal]; omega)]
      dsimp only
      rw [hsplit, hindex, set_append]
    · rw [← htotal]
      simp
    · dsimp only
      omega
    · dsimp only
      omega

theorem Holds.restart {b : Bufr} {old : CString} {x : Char} (hlength : b.bytes.length = n) (hn : 2 < n)
    (hbytes : b.bytes = x :: old) :
    ∃ b', b.restart = some b' ∧ Holds b' [] n := by
  refine ⟨⟨'\x00' :: old, 0, n⟩, ?_, ?_⟩
  · rw [Bufr.restart, store, if_pos (by dsimp only; omega), hbytes, List.set_cons_zero, ← hlength, hbytes]
  · exact ⟨by rw [← hlength, hbytes]; rfl, rfl, Nat.zero_add n, hn, old, rfl⟩

/-- What a call writes to the console: `puts` adds a newline. -/
def Call.written : Call → CString
  | .putchar c => [c]
  | .puts s => s ++ ['\n']
  | .cnputs s => s
  | .msglogstr _ => []

end LazyBsd.Printf
