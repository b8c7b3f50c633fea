import DsoBrowser.CString
import DsoBrowser.Lib.Bounded

/-!
# Texts in a buffer

A function that writes a text copies strings and characters one behind the other into a buffer
(`putText`) and terminates them. It stays inside exactly if the text it has written in the end fits
with its terminator (`filled_bind_terminator`).
-/

namespace DsoBrowser

open Bounded

variable {β : Type} {buffer : β} {cap : Nat}

/-- The front of a buffer of bytes, as far as it is written. -/
abbrev TextFront (cap : Nat) : Type := {bytes : List UInt8 // bytes.length ≤ cap}

/-- Nothing is written yet. -/
def TextFront.empty : TextFront cap := ⟨[], Nat.zero_le _⟩

/-- `memcpy(buf + pos, s, strlen(s)); pos += strlen(s);`, or `buf[pos++] = c;` for one character. -/
def putText (buffer : β) (out : TextFront cap) (s : CString) : Except (Stop β) (TextFront cap) :=
  append buffer cap out s.bytes

theorem filled_text_of_le {t : CString} (h : t.length ≤ cap) :
    filled buffer cap t.bytes = .ok ⟨t.bytes, by rwa [CString.length_bytes]⟩ :=
  filled_of_le _

theorem filled_text_of_lt {t : CString} (h : cap < t.length) :
    filled buffer cap t.bytes = .error (.outside buffer) :=
  filled_of_lt (by rwa [CString.length_bytes])

theorem putText_eq {out : TextFront cap} {t : CString} (h : out.val = t.bytes) (s : CString) :
    putText buffer out s = filled buffer cap (CString.bytes (t ++ s)) := by
  rw [putText, append_eq_filled, h, CString.bytes_append]

/-- Nothing is written any more. -/
theorem ok_eq_filled {out : TextFront cap} {t : CString} (h : out.val = t.bytes) :
    .ok out = filled buffer cap t.bytes := by
  rw [← h, filled_val]

/-- What is written later only makes the text longer. -/
theorem filled_bind_text {s t : CString} {f : TextFront cap → Except (Stop β) (TextFront cap)}
    (hfront : s <+: t) (h : ∀ out, out.val = s.bytes → f out = filled buffer cap t.bytes) :
    filled buffer cap s.bytes >>= f = filled buffer cap t.bytes := by
  refine filled_bind_eq_filled ?_ h
  rw [CString.length_bytes, CString.length_bytes]
  exact hfront.length_le

/-- **A step** of a function that writes a text. -/
theorem putText_bind {out : TextFront cap} {s t u : CString}
    {f : TextFront cap → Except (Stop β) (TextFront cap)} (hout : out.val = s.bytes)
    (hfront : s ++ t <+: u)
    (h : ∀ next, next.val = CString.bytes (s ++ t) → f next = filled buffer cap u.bytes) :
    putText buffer out t >>= f = filled buffer cap u.bytes := by
  rw [putText_eq hout]
  exact filled_bind_text hfront h

/-- **The end** of such a function: the text is terminated. -/
theorem filled_bind_terminator {α : Type} (t : CString)
    (f : TextFront cap → TextFront cap → Except (Stop β) α) :
    (filled buffer cap t.bytes >>= fun out => append buffer cap out [0] >>= f out) =
      if h : t.length < cap then
        f ⟨t.bytes, by rw [CString.length_bytes]; exact h.le⟩
          ⟨t.bytes ++ [0], by rw [List.length_append, CString.length_bytes]; exact h⟩
      else .error (.outside buffer) := by
  have hlen : (t.bytes ++ [0]).length = t.length + 1 := by
    rw [List.length_append, CString.length_bytes, List.length_singleton]
  by_cases hle : t.length ≤ cap
  · rw [filled_text_of_le hle]
    simp only [bind, Except.bind, append_eq_filled]
    by_cases hlt : t.length < cap
    · rw [dif_pos hlt, filled_of_le (by rw [hlen]; exact hlt)]
    · rw [dif_neg hlt, filled_of_lt (by rw [hlen]; omega)]
  · rw [filled_text_of_lt (Nat.not_le.mp hle), dif_neg fun hlt => hle hlt.le]
    rfl

end DsoBrowser
