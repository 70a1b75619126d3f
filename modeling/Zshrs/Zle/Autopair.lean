import Mathlib.Data.List.Basic
import Mathlib.Data.List.DropRight

namespace Zshrs.Zle.Autopair

abbrev Text := List Char

/-- The widgets that the pairs are wrapped around. -/
inductive Widget
  | self_insert | backward_delete_char | vi_backward_delete_char | backward_delete_word | backward_kill_word | other
  deriving DecidableEq

inductive Action
  | InsertPair (open_ close : Char)
  | SkipOver
  | DeleteRightThenPassthrough
  | Passthrough
  deriving DecidableEq

section Config

def DEFAULT_PAIRS : List (Char × Char) :=
  [('\x60', '\x60'), ('\'', '\''), ('\x22', '\x22'), ('\x7b', '\x7d'), ('[', ']'), ('(', ')'), (' ', ' ')]

def default_lbound (group : Text) : Option Text :=
  if group = "all".toList then some "[.:/!]".toList
  else if group = "quotes".toList then some "[\\]\x7d)a-zA-Z0-9]".toList
  else if group = "spaces".toList then some "[^\x7b(\\[]".toList
  else if group = "braces".toList then some []
  else if group = ['\x60'] then some ['\x60']
  else if group = ['\x22'] then some ['\x22']
  else if group = ['\''] then some ['\'']
  else none

def default_rbound (group : Text) : Option Text :=
  if group = "all".toList then some "[\\[\x7b(<,.:?/%$!a-zA-Z0-9]".toList
  else if group = "quotes".toList then some "[a-zA-Z0-9]".toList
  else if group = "spaces".toList then some "[^\\]\x7d)]".toList
  else if group = "braces".toList then some []
  else none

structure AutopairConfig where
  pairs : List (Char × Char)
  between_whitespace : Bool
  lbounds : Text → Option Text
  rbounds : Text → Option Text

def default_config : AutopairConfig := ⟨DEFAULT_PAIRS, false, fun _ => none, fun _ => none⟩

namespace AutopairConfig

variable (cfg : AutopairConfig)

def lbound (group : Text) : Option Text := (cfg.lbounds group).or (default_lbound group)

def rbound (group : Text) : Option Text := (cfg.rbounds group).or (default_rbound group)

def get_pair_by_open (key : Char) : Option Char := (cfg.pairs.find? (·.1 = key)).map Prod.snd

def get_pair_by_close (key : Char) : Option Char := (cfg.pairs.find? (·.2 = key)).map Prod.fst

end AutopairConfig

end Config

section Bounds

/-- The user's bracket expressions, respelled for the regex crate. -/
def zsh_ere_to_rust (in_class class_start : Bool) : Text → Text
  | [] => []
  | ['\\'] => ['\\']
  | '\\' :: n :: cs => '\\' :: n :: zsh_ere_to_rust in_class false cs
  | '[' :: '^' :: cs =>
    if in_class then '\\' :: '[' :: '^' :: zsh_ere_to_rust true false cs
    else '[' :: '^' :: zsh_ere_to_rust true true cs
  | '[' :: cs =>
    if in_class then '\\' :: '[' :: zsh_ere_to_rust true false cs else '[' :: zsh_ere_to_rust true true cs
  | ']' :: cs =>
    if in_class && class_start then '\\' :: ']' :: zsh_ere_to_rust true false cs
    else if in_class then ']' :: zsh_ere_to_rust false class_start cs
    else ']' :: zsh_ere_to_rust false false cs
  | c :: cs => c :: zsh_ere_to_rust in_class false cs

/-- The regex crate: what a pattern that it takes is found in. -/
abbrev Regex := Text → Option (Text → Bool)

variable (rx : Regex)

def cached_regex_matches (pattern hay : Text) : Bool :=
  if pattern = [] then false
  else ((rx pattern).or (rx (zsh_ere_to_rust false false pattern))).any fun is_match => is_match hay

def boundary_p (l_pat r_pat : Option Text) (lbuf rbuf : Text) : Bool :=
  ((l_pat.filter (· ≠ [])).any fun p => cached_regex_matches rx ("(?:".toList ++ p ++ ")$".toList) lbuf) ||
    (r_pat.filter (· ≠ [])).any fun p => cached_regex_matches rx ("^(?:".toList ++ p ++ [')']) rbuf

/-- The groups of bounds that apply to a key. -/
def groups (key : Char) : List Text :=
  "all".toList ::
    ((if key ∈ ['\'', '\x22', '\x60'] then ["quotes".toList]
      else if key ∈ ['\x7b', '[', '(', '<'] then ["braces".toList]
      else if key = ' ' then ["spaces".toList]
      else []) ++ [[key]])

def next_to_boundary_p (cfg : AutopairConfig) (key : Char) (lbuf rbuf : Text) : Bool :=
  (groups key).any fun group => boundary_p rx (cfg.lbound group) (cfg.rbound group) lbuf rbuf

end Bounds

section Predicates

def is_blank (c : Char) : Bool := c = ' ' || c = '\t'

/-- The text without every `ch` behind a backslash. -/
def unescaped (ch : Char) : Text → Text
  | [] => []
  | [c] => [c]
  | c :: d :: cs => if c = '\\' ∧ d = ch then unescaped ch cs else c :: unescaped ch (d :: cs)

def unescaped_count (s : Text) (ch : Char) : Nat := (unescaped ch s).countP (· = ch)

def balanced_p (open_ close : Char) (lbuf rbuf : Text) : Bool :=
  let llen := unescaped_count lbuf open_
  let rlen := unescaped_count rbuf close
  if rlen = 0 ∧ llen = 0 then true
  else if open_ = close then
    if open_ = ' ' then
      let run := lbuf.rtakeWhile is_blank
      let before := lbuf.rdropWhile is_blank
      run ≠ [] && !before.getLast?.any (fun c => c = '\'' || c = '\x22') && run.isPrefixOf rbuf
    else llen = rlen || (llen + rlen) % 2 = 0
  else
    let l2len := unescaped_count lbuf close
    let r2len := unescaped_count rbuf open_
    max ((llen : Int) - l2len) 0 ≥ (rlen : Int) - r2len

variable (rx : Regex) (cfg : AutopairConfig)

/-- Blanks or the ends of the buffer on both sides. -/
def forced (lbuf rbuf : Text) : Bool :=
  cfg.between_whitespace && lbuf.getLast?.all is_blank && rbuf.head?.all is_blank

def can_pair_p (key : Char) (lbuf rbuf : Text) : Bool :=
  match cfg.get_pair_by_open key with
  | none => false
  | some rchar =>
    if rchar ≠ ' ' then
      forced cfg lbuf rbuf || balanced_p key rchar lbuf rbuf && !next_to_boundary_p rx cfg key lbuf rbuf
    else !rbuf.all is_blank && !next_to_boundary_p rx cfg key lbuf rbuf

def can_skip_p (open_ close : Option Char) (lbuf rbuf : Text) : Bool :=
  match close with
  | none => false
  | some close =>
    if lbuf = [] then false
    else if open_ = some close ∧ (close = ' ' ∨ !balanced_p close close lbuf rbuf) then false
    else rbuf.head? = some close && lbuf.getLast? ≠ some '\\'

/-- The patterns that keep spaces apart outside of delimiters. -/
def SPACES_LEFT : Text := "[^\x7b(\\[] +$".toList
def SPACES_RIGHT : Text := "^ +[^\\]\x7d)]".toList

def can_delete_p (lbuf rbuf : Text) : Bool :=
  match lbuf.getLast? with
  | none => false
  | some lchar =>
    match cfg.get_pair_by_open lchar with
    | none => false
    | some rchar =>
      if rbuf.head? ≠ some rchar then false
      else if lchar = rchar then
        if lchar = ' ' then
          !(cached_regex_matches rx SPACES_LEFT lbuf || cached_regex_matches rx SPACES_RIGHT rbuf)
        else balanced_p lchar rchar lbuf rbuf
      else true

def is_quote (key : Char) : Bool := key = '\'' || key = '\x22' || key = '\x60'

def decide (widget : Widget) (key : Option Char) (lbuf rbuf : Text) : Action :=
  match widget with
  | .self_insert =>
    match key with
    | none => .Passthrough
    | some key =>
      match cfg.get_pair_by_open key with
      | some rchar =>
        if (is_quote key || key = ' ') && can_skip_p (some key) (some rchar) lbuf rbuf then .SkipOver
        else if can_pair_p rx cfg key lbuf rbuf then .InsertPair key rchar
        else .Passthrough
      | none =>
        match cfg.get_pair_by_close key with
        | some open_ => if can_skip_p (some open_) (some key) lbuf rbuf then .SkipOver else .Passthrough
        | none => .Passthrough
  | .backward_delete_char | .vi_backward_delete_char | .backward_delete_word | .backward_kill_word =>
    if can_delete_p rx cfg lbuf rbuf then .DeleteRightThenPassthrough else .Passthrough
  | .other => .Passthrough

end Predicates

/-- The buffer left and right of the cursor, after a key as the wiring carries it out. -/
def typed (action : Action) (key : Char) (buf : Text × Text) : Text × Text :=
  match action with
  | .InsertPair open_ close => (buf.1 ++ [open_], close :: buf.2)
  | .SkipOver => (buf.1 ++ buf.2.head?.toList, buf.2.tail)
  | _ => (buf.1 ++ [key], buf.2)

/-- The same after a backspace. -/
def erased (action : Action) (buf : Text × Text) : Text × Text :=
  match action with
  | .DeleteRightThenPassthrough => (buf.1.dropLast, buf.2.tail)
  | _ => (buf.1.dropLast, buf.2)

end Zshrs.Zle.Autopair
