import Dae.Sniffing.Tls

/-!
# The host of an HTTP stream

`component/sniffing/http.go`.  The method is looked for in the first bytes, and the host in the
lines that are complete.
-/

namespace Dae

/-- `bytes.Cut`: what is before the first separator and what is after it. -/
def cut (sep : List UInt8) : List UInt8 → Option (List UInt8 × List UInt8)
  | [] => none
  | b :: rest =>
    if sep <+: b :: rest then
      some ([], (b :: rest).drop sep.length)
    else
      (cut sep rest).map fun (before, after) => (b :: before, after)

def crlf : List UInt8 := [13, 10]

def asciiBytes (text : String) : List UInt8 :=
  text.toList.map Char.toUInt8

def httpMethods : List String :=
  ["GET", "POST", "PUT", "PATCH", "DELETE", "COPY", "HEAD", "OPTIONS", "LINK", "UNLINK", "PURGE",
    "LOCK", "UNLOCK", "PROPFIND", "CONNECT", "TRACE"]

def isValidHTTPMethod (method : List UInt8) : Bool :=
  method ∈ httpMethods.map asciiBytes

/-- `strings.EqualFold(key, "host")`.  Of these four letters only the `s` is equal under folding to a
letter that is not ASCII, `U+017F`. -/
def equalFoldHost (key : List UInt8) : Bool :=
  let lower := key.map fun b => if 65 ≤ b ∧ b ≤ 90 then b + 32 else b
  lower = asciiBytes "host" || lower = [104, 111, 0xc5, 0xbf, 116]

variable {bytes before after : List UInt8}

theorem cut_length {sep : List UInt8} (h : cut sep bytes = some (before, after)) :
    after.length + sep.length ≤ bytes.length := by
  induction bytes generalizing before with
  | nil => cases h
  | cons b rest ih =>
    rw [cut] at h
    split at h
    next hsep =>
      cases h
      have hle := hsep.length_le
      rw [List.length_drop]
      omega
    next =>
      obtain ⟨⟨before', after'⟩, hcut, heq⟩ := Option.map_eq_some_iff.mp h
      cases heq
      exact (ih hcut).trans (Nat.le_succ _)

/-- A separator that was found stays the first one. -/
theorem cut_append {sep : List UInt8} (later : List UInt8)
    (h : cut sep bytes = some (before, after)) :
    cut sep (bytes ++ later) = some (before, after ++ later) := by
  induction bytes generalizing before with
  | nil => cases h
  | cons b rest ih =>
    have hlength := cut_length h
    rw [cut] at h
    rw [List.cons_append, cut]
    split at h
    next hsep =>
      cases h
      have hsep' : sep <+: b :: (rest ++ later) :=
        hsep.trans (List.prefix_append (b :: rest) later)
      rw [if_pos hsep', ← List.cons_append, List.drop_append_of_le_length hsep.length_le]
    next hsep =>
      obtain ⟨⟨before', after'⟩, hcut, heq⟩ := Option.map_eq_some_iff.mp h
      cases heq
      -- no separator begins here and ends in what follows: there is room for one further on
      have hnone : ¬ sep <+: b :: (rest ++ later) := by
        intro hsep'
        exact hsep (List.prefix_of_prefix_length_le hsep' (List.prefix_append (b :: rest) later)
          (by omega))
      rw [if_neg hnone, ih hcut]
      rfl

/-- What one complete line gives: a result, unless the next line is to be looked at. -/
def sniffLine (line : List UInt8) : Option Sniffed :=
  if line = [] then
    some (.error .notFound)
  else
    match cut (asciiBytes ":") line with
    | none => none
    | some (key, value) => if equalFoldHost key then some (.ok value) else none

def sniffLines (remaining : List UInt8) : Sniffed :=
  match hcut : cut crlf remaining with
  | none => .error .needMore
  | some (line, rest) =>
    match sniffLine line with
    | some result => result
    | none => sniffLines rest
  termination_by remaining.length
  decreasing_by
    have hlength := cut_length hcut
    simp only [crlf, List.length_cons] at hlength
    omega

/-- The method is looked for in as many bytes. -/
def methodSearch : Nat := 12

/-- A byte that no method has. -/
def notUpper (c : UInt8) : Bool :=
  c < 'A'.toUInt8 || c > 'Z'.toUInt8

def sniffHttp (buf : List UInt8) : Sniffed :=
  if buf = [] then
    .error .notApplicable
  else
    let search := buf.take methodSearch
    match cut (asciiBytes " ") search with
    | none =>
      if search.any notUpper then
        .error .notApplicable
      else if search.length = methodSearch then
        .error .notApplicable
      else
        .error .needMore
    | some (method, _) =>
      if isValidHTTPMethod method then sniffLines buf else .error .notApplicable

theorem sniffLines_none {remaining : List UInt8} (h : cut crlf remaining = none) :
    sniffLines remaining = .error .needMore := by
  unfold sniffLines
  split
  next => rfl
  next h' => cases h.symm.trans h'

theorem sniffLines_some {remaining line rest : List UInt8}
    (h : cut crlf remaining = some (line, rest)) :
    sniffLines remaining = (sniffLine line).getD (sniffLines rest) := by
  rw [sniffLines]
  split
  next h' => cases h.symm.trans h'
  next h' =>
    cases h.symm.trans h'
    cases sniffLine line <;> rfl

/-- The induction is on the complete lines of the start. -/
theorem sniffLines_append (remaining later : List UInt8)
    (h : sniffLines remaining ≠ .error .needMore) :
    sniffLines (remaining ++ later) = sniffLines remaining := by
  induction remaining using sniffLines.induct with
  | case1 remaining hcut => exact absurd (sniffLines_none hcut) h
  | case2 remaining line rest hcut result hresult =>
    rw [sniffLines_some hcut, sniffLines_some (cut_append later hcut), hresult]
    rfl
  | case3 remaining line rest hcut hresult ih =>
    rw [sniffLines_some hcut, hresult] at h
    rw [sniffLines_some hcut, sniffLines_some (cut_append later hcut), hresult]
    exact ih h

/-- What is before a separator of one byte holds all the bytes that have none. -/
theorem prefix_of_cut_append {c : UInt8} {later : List UInt8}
    (hnone : cut [c] bytes = none) (h : cut [c] (bytes ++ later) = some (before, after)) :
    bytes <+: before := by
  induction bytes generalizing before with
  | nil => exact List.nil_prefix
  | cons b rest ih =>
    rw [cut] at hnone
    rw [List.cons_append, cut] at h
    simp only [List.cons_prefix_cons, List.nil_prefix, and_true] at hnone h
    split at hnone
    next => cases hnone
    next hb =>
      rw [if_neg hb] at h
      obtain ⟨⟨before', after'⟩, hcut, heq⟩ := Option.map_eq_some_iff.mp h
      cases heq
      exact List.cons_prefix_cons.mpr ⟨rfl, ih (by simpa using hnone) hcut⟩

theorem upper_of_isValidHTTPMethod {method : List UInt8} (h : isValidHTTPMethod method = true) :
    method.any notUpper = false := by
  have hall : ∀ method ∈ httpMethods.map asciiBytes, method.any notUpper = false := by decide
  exact hall method (of_decide_eq_true h)

theorem sniffHttp_append {read : List UInt8} (later : List UInt8) (hread : read ≠ [])
    (h : sniffHttp read ≠ .error .needMore) : sniffHttp (read ++ later) = sniffHttp read := by
  have hsearch : (read ++ later).take methodSearch =
      read.take methodSearch ++ later.take (methodSearch - read.length) := List.take_append ..
  have hne : read ++ later ≠ [] := by simp [hread]
  unfold sniffHttp at h ⊢
  rw [if_neg hread] at h ⊢
  rw [if_neg hne, hsearch]
  dsimp only at h ⊢
  cases hcut : cut (asciiBytes " ") (read.take methodSearch) with
  | some found =>
    obtain ⟨method, after⟩ := found
    rw [hcut] at h
    rw [cut_append _ hcut]
    dsimp only at h ⊢
    split at h
    next hvalid =>
      rw [if_pos hvalid, if_pos hvalid]
      exact sniffLines_append read later h
    next hvalid => rw [if_neg hvalid, if_neg hvalid]
  | none =>
    rw [hcut] at h
    dsimp only at h ⊢
    split at h
    next hupper =>
      -- the byte stays in the method, whether or not the rest of the search has a space
      rw [if_pos hupper]
      cases hlater : cut (asciiBytes " ")
          (read.take methodSearch ++ later.take (methodSearch - read.length)) with
      | none =>
        dsimp only
        rw [if_pos (by rw [List.any_append, hupper, Bool.true_or])]
      | some found =>
        obtain ⟨method, after⟩ := found
        have hpre : read.take methodSearch <+: method := prefix_of_cut_append hcut hlater
        have hinvalid : ¬ isValidHTTPMethod method = true := by
          intro hvalid
          obtain ⟨c, hc, hbad⟩ := List.any_eq_true.mp hupper
          have hnone := List.any_eq_false.mp (upper_of_isValidHTTPMethod hvalid) c
            (hpre.subset hc)
          exact hnone hbad
        exact if_neg hinvalid
    next hupper =>
      split at h
      next hfull =>
        have hroom : methodSearch - read.length = 0 := by
          rw [List.length_take] at hfull
          omega
        rw [hroom, List.take_zero, List.append_nil, hcut, if_neg hupper, if_pos hfull]
      next => exact absurd rfl h

end Dae
