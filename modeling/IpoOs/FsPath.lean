import IpoOs.FsDir

/-!
# Paths

The functions of `ipo_path.c`. `fs_canonicalize` works in three fixed
buffers: 63 characters of a component, 128 components, and the caller's
output. What does not fit is dropped without an error, and the length
checks of `path_resolve` and `path_resolve_parent` see the result only.

All buffers are of the sizes of the source. The canonical path is a list of
characters that the model joins at the end; the source writes it character
by character and stops at the end of the output, which is the same for every
path that fits and is modelled for the others.
-/

namespace IpoOs

/-! ## Canonicalisation

Components are cut at slashes, `.` and empty ones are dropped, and `..`
takes the last one back. Nothing here reads the volume. -/

/-- The component loop of `fs_canonicalize`, with at most `fuel` rounds: `c`
is what is left of the input and `tokens` the components kept so far. -/
def canonTokens : (fuel : Nat) → (c : Str) → (tokens : List Str) → List Str
  | 0, _, tokens => tokens
  | fuel + 1, c, tokens =>
      let c := c.dropWhile (· = slash)
      if c = [] then tokens
      else
        let token := (c.takeWhile (· ≠ slash)).take 63
        let c := c.dropWhile (· ≠ slash)
        if token = dot then canonTokens fuel c tokens
        else if token = dotdot then canonTokens fuel c tokens.dropLast
        else if tokens.length ≥ 128 then tokens
        else canonTokens fuel c (tokens ++ [token])

/-- The output loop of `fs_canonicalize`. -/
def canonJoin (outSize : Nat) : List Str → Str → Str
  | [], out => out
  | t :: ts, out =>
      if out.length + 1 + t.length + 1 ≥ outSize then out
      else canonJoin outSize ts (out ++ slash :: t)

def fsCanonicalize (input : Str) (outSize : Nat) : Str :=
  let tokens := canonTokens (input.length + 1) input []
  if tokens = [] then (if outSize > 1 then [slash] else [])
  else canonJoin outSize tokens []

section

variable {σ : Type} (dev : BlockDev σ) (sb : Superblock)

/-! ## Resolution

Resolution starts at inode 1 and searches each directory on the way for the
next component. The parent of a path is resolved by cutting the canonical
path at its last slash. -/

/-- The component loop of `path_resolve`, with at most `fuel` rounds. -/
def resolveFrom : (fuel : Nat) → (p : Str) → (cur : Nat) → Prog σ (Option Nat)
  | 0, _, cur => pure (some cur)
  | fuel + 1, p, cur =>
      if p = [] then pure (some cur)
      else
        let token := p.takeWhile (· ≠ slash)
        if token.length ≥ 64 then pure none
        else do
          match ← dirFindEntry dev sb cur token with
          | none => pure none
          | some found =>
              match p.dropWhile (· ≠ slash) with
              | [] => pure (some found.1.inode.toNat)
              | _ :: p => resolveFrom fuel p found.1.inode.toNat

def pathResolve (path : Str) : Prog σ (Option Nat) :=
  let tmp := fsCanonicalize path 512
  if tmp = [slash] then pure (some 1)
  else resolveFrom dev sb (tmp.length + 1) (tmp.drop 1) 1

/-- The last `/` of a string. -/
def lastSlash (s : Str) : Option Nat :=
  (s.reverse.findIdx? (· = slash)).map fun i => s.length - 1 - i

/-- `path_resolve_parent`: the parent's inode number and the last component. -/
def pathResolveParent (path : Str) : Prog σ (Option (Nat × Str)) :=
  let tmp := fsCanonicalize path 512
  if tmp = [slash] then pure none
  else
    match lastSlash tmp with
    | none => pure none
    | some r =>
        let parentPath := if r = 0 then [slash] else tmp.take r
        let name := tmp.drop (r + 1)
        if parentPath.length ≥ 512 then pure none
        else if name.length ≥ 64 then pure none
        else do
          match ← pathResolve dev sb parentPath with
          | none => pure none
          | some parent => pure (some (parent, name))

end

end IpoOs
