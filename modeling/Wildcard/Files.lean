import Wildcard.Bytes

/-!
# File trees

A file tree holds the directories and files below one directory in memory, so that the command can
be run without a file system. Files are put in place and found by the same walk along a relative
path: empty components and single dots stay, double dots lead back, and a path may only go through
directories.
-/

namespace Wildcard

abbrev Components := List Bytes

structure FileTree where
  directories : List Components
  files : List (Components × Bytes)

namespace FileTree

def slash : UInt8 := 47
def here : Bytes := [46]
def back : Bytes := [46, 46]

def longestPath : Nat := 4095

def consComponent (b : UInt8) : Components → Components
  | [] => if b == slash then [[], []] else [[b]]
  | c :: rest => if b == slash then [] :: c :: rest else (b :: c) :: rest

/-- The texts between the slashes of a path, one more than there are slashes. -/
def componentsOf (path : Bytes) : Components := path.foldr consComponent [[]]

/-- Where a component leads from a directory; nothing is known beyond the top of the tree. -/
def enter? (dir : Components) (c : Bytes) : Option Components :=
  if c.isEmpty || c == here then some dir
  else if c == back then if dir.isEmpty then none else some dir.dropLast
  else some (dir ++ [c])

def empty : FileTree := ⟨[[]], []⟩

/-- Put a file where the components lead from a directory. The directories on the way are made,
and a file that was there before is replaced. -/
def place (tree : FileTree) (text : Bytes) : Components → Components → FileTree
  | _, [] => tree
  | dir, [name] => { tree with files := (dir ++ [name], text) :: tree.files }
  | dir, c :: rest =>
    match enter? dir c with
    | some next => place { tree with directories := next :: tree.directories } text next rest
    | none => tree

def ofPairs (pairs : List (Bytes × Bytes)) : FileTree :=
  pairs.foldl (fun tree (path, text) => tree.place text [] (componentsOf path)) empty

def readFrom (tree : FileTree) : Components → Components → Option Bytes
  | _, [] => none
  | dir, [name] => tree.files.lookup (dir ++ [name])
  | dir, c :: rest =>
    match enter? dir c with
    | some next => if tree.directories.contains next then tree.readFrom next rest else none
    | none => none

def read (tree : FileTree) (path : Bytes) : Option Bytes :=
  if path.head? == some slash || longestPath < path.length then none
  else tree.readFrom [] (componentsOf path)

/-- The components lead from a directory to the place of a file and never above the top. -/
inductive Reaches : Components → Components → Prop
  | file {dir : Components} {name : Bytes} : Reaches dir [name]
  | through {dir next : Components} {c d : Bytes} {rest : Components} :
      enter? dir c = some next → Reaches next (d :: rest) → Reaches dir (c :: d :: rest)

variable {tree : FileTree} {dir cs : Components} {path text : Bytes}

theorem mem_directories_place (h : dir ∈ tree.directories) (text : Bytes)
    (start cs : Components) : dir ∈ (tree.place text start cs).directories := by
  fun_induction place tree text start cs with
  | case1 => exact h
  | case2 => exact h
  | case3 tree start c rest _ next _ ih => exact ih (List.mem_cons_of_mem next h)
  | case4 => exact h

theorem readFrom_place (h : Reaches dir cs) (tree : FileTree) (text : Bytes) :
    (tree.place text dir cs).readFrom dir cs = some text := by
  induction h generalizing tree with
  | file => simp [place, readFrom]
  | @through dir next c d rest henter _ ih =>
    have hmade : next ∈ (place { tree with directories := next :: tree.directories } text next
        (d :: rest)).directories :=
      mem_directories_place List.mem_cons_self text next (d :: rest)
    simp only [place, henter, readFrom, List.contains_iff_mem.mpr hmade, if_true]
    exact ih _

/-- A text that was put under a path last is read there. -/
theorem read_ofPairs_concat (pairs : List (Bytes × Bytes)) (hrelative : path.head? ≠ some slash)
    (hlength : path.length ≤ longestPath) (hreaches : Reaches [] (componentsOf path)) :
    (ofPairs (pairs ++ [(path, text)])).read path = some text := by
  have hread : ¬ (path.head? == some slash || decide (longestPath < path.length)) = true := by
    simpa [hrelative] using hlength
  rw [read, if_neg hread, ofPairs, List.foldl_append]
  exact readFrom_place hreaches _ text

end FileTree
end Wildcard
