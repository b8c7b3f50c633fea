import DsoBrowser.HtmlTag

/-!
# URL resolution

`html_resolve_url` turns a URL of a page into a content name. It answers the length it reports
and the bytes it writes at the start of the caller's buffer.
-/

namespace DsoBrowser

/-- The loop that looks for the last `/` of the base. -/
def lastSlashLoop : Nat → Nat → CString → Nat
  | _, lastSlash, [] => lastSlash
  | i, lastSlash, c :: cs => lastSlashLoop (i + 1) (if c = slash then i else lastSlash) cs

/-- `last_slash`, which is `0` also for a base without one -/
def lastSlash (base : CString) : Nat := lastSlashLoop 0 0 base

/-- A string cut to the buffer, with its terminator. -/
def copied (s : CString) (outLen : Nat) : Nat × List UInt8 :=
  let s : CString := s.take (outLen - 1)
  (s.length, s.bytes ++ [0])

/-- The URL starts with this scheme. -/
def hasScheme (scheme url : CString) : Bool := equalsCase (url.take scheme.length) scheme

/-- `"http://"` -/
def http : CString := text ['h', 't', 't', 'p', ':', '/', '/']

/-- `"https://"` -/
def https : CString := text ['h', 't', 't', 'p', 's', ':', '/', '/']

/-- `html_resolve_url`. Only the relative branch writes before it looks at the buffer's size. -/
def htmlResolveUrl (base : Option CString) (rel : CString) (outLen : Nat) :
    Except HtmlFault (Nat × List UInt8) :=
  if outLen = 0 then .ok (0, [])
  else if hasScheme http rel then .ok (copied ((rel.drop http.length).dropWhile (· ≠ slash)) outLen)
  else if hasScheme https rel then
    .ok (copied ((rel.drop https.length).dropWhile (· ≠ slash)) outLen)
  else if rel.head? = some slash then .ok (copied rel outLen)
  else match base with
    | none => .ok (copied rel outLen)
    | some base =>
      let prefixLen := lastSlash base + 1
      let total := min (prefixLen + rel.length) (outLen - 1)
      -- the prefix of an empty base is its terminator
      if prefixLen + rel.length ≤ outLen then
        .ok (total, ((base.bytes ++ [0]).take prefixLen ++ rel.bytes).take total ++ [0])
      else .error .nameWrite

end DsoBrowser
