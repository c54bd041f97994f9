import ScriptEngine.Text.Cluster
set_option autoImplicit false

/-!
# Command line: typed lines

A line that is typed may hold backspaces.  Each takes back the cluster before it
that is still there; where there is none, it does nothing.  The clusters are
those of the line as it was typed, so that a mark behind a backspace does not
join what is before it.

The size of a cluster is kept in one byte.  Of a cluster with 256 bytes or more
only as many bytes are taken back as that leaves.

`read_of_no_backspace` says that a line without backspaces stays as it is.
-/

namespace ScriptEngine.CommandLine

/-- What is left of a line, as far as it has been read. -/
structure TypedLine where
  /-- Newest first. -/
  kept : List Char := []
  /-- The sizes of the clusters that can be taken back, newest first. -/
  sizes : List Nat := []
  deriving DecidableEq, Repr, Inhabited

namespace TypedLine

/-- How many bytes characters take. -/
def byteCount : List Char → Nat
  | [] => 0
  | c :: cs => c.utf8Size + byteCount cs

/-- Drops characters as long as they fit in a number of bytes. -/
def dropBytes : Nat → List Char → List Char
  | _, [] => []
  | count, c :: cs =>
      if c.utf8Size ≤ count then dropBytes (count - c.utf8Size) cs else c :: cs

/-- Takes back the newest cluster. -/
def takeBack (t : TypedLine) : TypedLine :=
  match t.sizes with
  | [] => t
  | size :: sizes => ⟨dropBytes size t.kept, sizes⟩

/-- Puts a cluster at the end. -/
def put (t : TypedLine) (cluster : List Char) : TypedLine :=
  ⟨cluster.reverse ++ t.kept, byteCount cluster % 256 :: t.sizes⟩

/-- Goes on with one more cluster. -/
def add (t : TypedLine) (cluster : List Char) : TypedLine :=
  if cluster = ['\x08'] then t.takeBack else t.put cluster

/-- What a line amounts to. -/
def read (line : String) : String :=
  String.ofList
    (((Text.clusters line.toList).foldl add {}).kept.reverse)

/-! ## Lines without backspaces -/

theorem kept_foldl_add {clusters : List (List Char)}
    (h : ∀ cluster ∈ clusters, cluster ≠ ['\x08']) (t : TypedLine) :
    (clusters.foldl add t).kept = clusters.flatten.reverse ++ t.kept := by
  induction clusters generalizing t with
  | nil => rfl
  | cons cluster later ih =>
    have hfirst := h cluster (List.mem_cons_self ..)
    rw [List.foldl_cons, ih (fun c hc => h c (List.mem_cons_of_mem _ hc))]
    simp [add, hfirst, put]

theorem read_of_no_backspace {line : String} (h : '\x08' ∉ line.toList) :
    read line = line := by
  have hclusters :
      ∀ cluster ∈ Text.clusters line.toList, cluster ≠ ['\x08'] := by
    rintro cluster hmem rfl
    refine h ?_
    rw [← Text.flatten_clusters line.toList]
    exact List.mem_flatten.mpr ⟨['\x08'], hmem, List.mem_singleton_self _⟩
  unfold read
  rw [kept_foldl_add hclusters, Text.flatten_clusters]
  simp

end TypedLine

end ScriptEngine.CommandLine
