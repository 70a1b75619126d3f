import Zshrs.Fmt.Scanned

namespace Zshrs.Fmt

open Lib Lib.Utf8

structure FmtOptions where
  indent_width : Nat
  use_tabs : Bool

/-- The variables of `format_source` that its loop changes. -/
structure Progress where
  out : List Char
  stack : List Block
  pending_heredocs : List Heredoc
  active_heredoc : Option Heredoc
  continuation : Bool

def normCtx (stack : List Block) : NormCtx where
  paren_depth := (stack.filter fun b => decide (b = .Paren) || decide (b = .DCond)).length
  in_case_pattern := decide (stack.head? = some (.Case .Pattern))

def joinKeyword (body : List Char) (stack : List Block) : Option (List Char) :=
  if body = "then".toList ∧ stack.head? = some (.If false) then some "; then".toList
  else if body = "do".toList ∧ stack.head? = some (.Loop false) then some "; do".toList
  else none

def openTop : List Block → List Block
  | .If _ :: rest => .If true :: rest
  | .Loop _ :: rest => .Loop true :: rest
  | stack => stack

section Lines

variable (uni : Unicode) (opts : FmtOptions) (st : Progress)

/-- A bare `then` or `do` goes to the end of the line above. -/
def joined (body : List Char) : Option Progress :=
  if st.continuation then none
  else (joinKeyword body st.stack).bind fun kw =>
    if '\n' ∈ st.out ∧ ¬ ['\n', '\n'] <:+ st.out ∧ 2 ≤ (encode st.out).length then
      some { st with stack := openTop st.stack, out := st.out.dropLast ++ kw ++ ['\n'] }
    else none

/-- A line that has been scanned is written out. -/
def indented (body : List Char) (scan : Scan) : Progress :=
  let depth := scan.indent_basis + if st.continuation then 1 else 0
  let indent := if opts.use_tabs then List.replicate depth '\t' else List.replicate (depth * opts.indent_width) ' '
  { out := st.out ++ indent ++ body.rdropWhile uni.is_whitespace ++ ['\n']
    stack := scan.stack
    pending_heredocs := scan.heredocs.tail
    active_heredoc := scan.heredocs.head?
    continuation := scan.ends_with_continuation }

/-- A line of a heredoc passes through; its terminator ends it. -/
def heredocLine (h : Heredoc) (line : List Char) : Progress :=
  let candidate := if h.strip_tabs then line.dropWhile fun c => decide (c = '\t') else line
  let st := { st with out := st.out ++ line ++ ['\n'] }
  if candidate = h.tag then
    { st with active_heredoc := st.pending_heredocs.head?, pending_heredocs := st.pending_heredocs.tail }
  else st

/-- One round of the loop of `format_source`. -/
def formatLine (line : List Char) : Option Progress :=
  match st.active_heredoc with
  | some h => some (heredocLine st h line)
  | none =>
    let body := line.dropWhile uni.is_whitespace
    if body = [] then some { st with out := st.out ++ ['\n'] }
    else (normalize_spacing uni body (normCtx st.stack)).bind fun body =>
      match joined st body with
      | some st => some st
      | none => (scan_line body st.stack st.pending_heredocs).map (indented uni opts st body)

/-- The normalizer is stuck nowhere on a line. -/
def NormalizerFits (body : List Char) (ctx : NormCtx) : Prop :=
  ∀ s, (normalizing uni body).Reaches (startNorm ctx) s → ¬ (normalizing uni body).Stuck s

def ScannerFits (body : List Char) (stack : List Block) (heredocs : List Heredoc) : Prop :=
  ∀ s, (scanning body).Reaches (startScan stack heredocs) s → ¬ (scanning body).Stuck s

/-- A line of a heredoc, a blank one, or one on which neither the normalizer nor, on the normalized line, the scanner
is stuck. -/
def LineFits (line : List Char) : Prop :=
  st.active_heredoc = none → line.dropWhile uni.is_whitespace ≠ [] →
    NormalizerFits uni (line.dropWhile uni.is_whitespace) (normCtx st.stack) ∧
      ∀ text, normalize_spacing uni (line.dropWhile uni.is_whitespace) (normCtx st.stack) = some text →
        joined st text = none → ScannerFits text st.stack st.pending_heredocs

theorem formatLine_ne_none_iff (line : List Char) : formatLine uni opts st line ≠ none ↔ LineFits uni st line := by
  rw [formatLine, LineFits]
  cases hactive : st.active_heredoc with
  | some h => simp
  | none =>
      by_cases hbody : line.dropWhile uni.is_whitespace = []
      · simp [hbody]
      · dsimp only
        rw [if_neg hbody, NormalizerFits, ← normalize_spacing_ne_none_iff]
        cases htext : normalize_spacing uni (line.dropWhile uni.is_whitespace) (normCtx st.stack) with
        | none => simp [hbody]
        | some text =>
            rw [Option.bind_some]
            cases hjoined : joined st text with
            | some st' => simp [hjoined]
            | none =>
                dsimp only
                rw [ne_eq, Option.map_eq_none_iff, ← ne_eq, scan_line_ne_none_iff]
                simp [hbody, hjoined, ScannerFits]

end Lines

def startFmt : Progress := ⟨[], [], [], none, false⟩

/-- Exactly one trailing newline. -/
def finish (out : List Char) : List Char := out.rdropWhile (fun c => decide (c = '\n')) ++ ['\n']

def format_source (uni : Unicode) (src : List Char) (opts : FmtOptions) : Option (List Char) :=
  ((src.splitOn '\n').foldlM (formatLine uni opts) startFmt).map fun st => finish st.out

/-- A fold gets to the end if and only if it gets past each item that it comes to. -/
theorem foldlM_ne_none_iff {α β : Type} (f : β → α → Option β) (xs : List α) (s : β) :
    xs.foldlM f s ≠ none ↔ ∀ pre x post, xs = pre ++ x :: post → ∀ t, pre.foldlM f s = some t → f t x ≠ none := by
  induction xs generalizing s with
  | nil => simp
  | cons y xs ih =>
      rw [List.foldlM_cons]
      constructor
      · intro h pre x post hxs t ht
        cases hy : f s y with
        | none =>
            rw [hy] at h
            exact absurd rfl h
        | some u =>
            rw [hy] at h
            cases pre with
            | nil =>
                cases ht
                cases hxs
                rw [hy]
                exact Option.some_ne_none u
            | cons z pre =>
                cases hxs
                rw [List.foldlM_cons, hy] at ht
                exact (ih u).mp h pre x post rfl t ht
      · intro h
        obtain ⟨u, hu⟩ := Option.ne_none_iff_exists'.mp (h [] y xs rfl s rfl)
        rw [hu]
        apply (ih u).mpr
        intro pre x post hxs t ht
        apply h (y :: pre) x post (by rw [hxs]; rfl) t
        rw [List.foldlM_cons, hu]
        exact ht

/-- The formatter and its two scanners return exactly where no char of several bytes is escaped and no `${` runs over
the end of a line. -/
theorem format_total_iff (uni : Unicode) :
    (∀ body ctx, normalize_spacing uni body ctx ≠ none ↔ NormalizerFits uni body ctx) ∧
    (∀ body stack heredocs, scan_line body stack heredocs ≠ none ↔ ScannerFits body stack heredocs) ∧
    ∀ src opts, format_source uni src opts ≠ none ↔ ∀ pre line post, src.splitOn '\n' = pre ++ line :: post →
      ∀ st, pre.foldlM (formatLine uni opts) startFmt = some st → LineFits uni st line := by
  refine ⟨normalize_spacing_ne_none_iff uni, scan_line_ne_none_iff, ?_⟩
  intro src opts
  rw [format_source, ne_eq, Option.map_eq_none_iff, ← ne_eq, foldlM_ne_none_iff]
  simp only [formatLine_ne_none_iff]

section Panics

def ascii : Unicode := ⟨Char.isWhitespace, Char.isAlphanum⟩

/-- A source of one line on which the normalizer is stuck. -/
theorem format_source_eq_none {body : List Char} (hline : body.splitOn '\n' = [body])
    (hbody : body.dropWhile ascii.is_whitespace = body) (hne : body ≠ [])
    (h : normalize_spacing ascii body (normCtx []) = none) (opts : FmtOptions) :
    format_source ascii body opts = none := by
  have hformat : formatLine ascii opts startFmt body = none := by
    rw [formatLine]
    dsimp only [startFmt]
    rw [hbody, if_neg hne, h]
    rfl
  rw [format_source, hline, List.foldlM_cons, hformat]
  rfl

/-- `\é` alone on a line, and an open `${` before a backslash that ends the line. -/
theorem format_panics : format_source ascii ['\\', 'é'] ⟨4, false⟩ = none ∧
    format_source ascii ['$', '\x7b', '\\'] ⟨4, false⟩ = none := by
  refine ⟨format_source_eq_none (by decide) (by decide) (by decide) ?_ _,
    format_source_eq_none (by decide) (by decide) (by decide) ?_ _⟩
  · have hround : (normalizing ascii ['\\', 'é']).Round (startNorm (normCtx []))
        ((startNorm (normCtx [])).backslash (encode ['\\', 'é'])) := ⟨by decide, by rfl⟩
    rw [normalize_spacing, Loop.run_round hround, Loop.run_panic (by decide) (by decide)]
    rfl
  · rw [normalize_spacing, Loop.run_panic (by decide) (by decide)]
    rfl

end Panics

end Zshrs.Fmt
