import ScriptEngine.Text.ClusterBreak
set_option autoImplicit false

/-!
# Text: clusters

A text falls into clusters of characters, each of which a reader takes for one
character.  Whether a character goes on with the cluster before it depends on
the class of both its neighbours, and for flags, joined pictographs and
conjuncts on more of the cluster.

`flatten_clusters` says that nothing of the text is lost.
-/

namespace ScriptEngine.Text

/-! ## Joining -/

/-- A cluster, newest character first, ends in a letter and a sign that links it
to another one. -/
def endsInLink (cluster : List Char) : Bool :=
  (cluster.takeWhile isConjunctMark).any isLinker &&
    (cluster.dropWhile isConjunctMark).head?.any fun c =>
      clusterBreak c == .consonant

/-- A cluster, newest character first, ends in a pictograph and its marks. -/
def endsInPictograph (cluster : List Char) : Bool :=
  (cluster.dropWhile fun c => clusterBreak c == .extend).head?.any fun c =>
    clusterBreak c == .pictograph

/-- A cluster, newest character first, ends in half a flag. -/
def endsInHalfFlag (cluster : List Char) : Bool :=
  (cluster.takeWhile fun c => clusterBreak c == .regional).length % 2 == 1

/-- The character `c` goes on with the cluster of `last` and, newest first, the
characters `before` it. -/
def joins (last : Char) (before : List Char) (c : Char) : Bool :=
  match clusterBreak last, clusterBreak c with
  | .carriageReturn, .lineFeed => true
  | .control, _ | .carriageReturn, _ | .lineFeed, _ => false
  | _, .control | _, .carriageReturn | _, .lineFeed => false
  | .leading, .leading | .leading, .vowel => true
  | .leading, .openSyllable | .leading, .closedSyllable => true
  | .openSyllable, .vowel | .openSyllable, .trailing => true
  | .vowel, .vowel | .vowel, .trailing => true
  | .closedSyllable, .trailing | .trailing, .trailing => true
  | _, .extend | _, .joiner | _, .spacingMark => true
  | .prepend, _ => true
  | _, .consonant => endsInLink (last :: before)
  | .joiner, .pictograph => endsInPictograph before
  | .regional, .regional => endsInHalfFlag (last :: before)
  | _, _ => false

/-! ## Clusters -/

/-- The clusters of a text that goes on with the cluster of `last` and, newest
first, the characters `before` it. -/
def clustersAfter (last : Char) (before : List Char) : List Char → List (List Char)
  | [] => [(last :: before).reverse]
  | c :: cs =>
      if joins last before c then clustersAfter c (last :: before) cs
      else (last :: before).reverse :: clustersAfter c [] cs

/-- The clusters of a text. -/
def clusters : List Char → List (List Char)
  | [] => []
  | c :: cs => clustersAfter c [] cs

theorem flatten_clustersAfter (last : Char) (before cs : List Char) :
    (clustersAfter last before cs).flatten = (last :: before).reverse ++ cs := by
  induction cs generalizing last before with
  | nil => simp [clustersAfter]
  | cons c cs ih =>
    unfold clustersAfter
    split
    · rw [ih]
      simp
    · rw [List.flatten_cons, ih]
      simp

theorem flatten_clusters (cs : List Char) : (clusters cs).flatten = cs := by
  cases cs with
  | nil => rfl
  | cons c cs => exact flatten_clustersAfter c [] cs

end ScriptEngine.Text
