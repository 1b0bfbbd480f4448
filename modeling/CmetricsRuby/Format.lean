import CmetricsRuby.World

/-!
# `get_metrics`: a context as Ruby Hashes

One inner Array a counter, gauge or untyped, and in it one Hash a sample. A NULL string of the
context raises. `seconds` is what the machine makes of a timestamp in nanoseconds.
-/

namespace CmetricsRuby

def rbLit (s : String) : Bytes := s.toList.map fun c => UInt8.ofNat c.toNat

def rbStrOf (p : Option CStr) : Except Exit Bytes := rbStrNew2 (p.map CStr.bytes)

abbrev Entries := List (Bytes × Value)

def appendMetricValue (seconds : Nat → Double) (map : CmtMap) (rbHash : Entries) (metric : CmtMetric) :
    Except Exit Entries := do
  let opts := map.opts
  let rbHash := rbHashAset rbHash (rbLit "name") (.string (← rbStrOf opts.name))
  let rbHash := rbHashAset rbHash (rbLit "description") (.string (← rbStrOf opts.description))
  let rbHash := rbHashAset rbHash (rbLit "value") (.float metric.val)
  let rbHash := rbHashAset rbHash (rbLit "timestamp") (.float (seconds metric.timestamp))
  return rbHash

def staticLabelsHash : List CmtLabel → Entries → Except Exit Entries
  | [], shash => .ok shash
  | slabel :: rest, shash => do
    let key ← rbStrOf slabel.key
    let val ← rbStrOf slabel.val
    staticLabelsHash rest (rbHashAset shash key (.string val))

/-- `cfl_list_entry_next` on a circular list of `size` entries, the cursor given by its index. -/
def nextCursor (size i : Nat) : Nat := if i + 1 = size then 0 else i + 1

/-- The loop over the label values of a sample, with `labelK` walking round the keys of its map. With
no keys at all the first entry is the list head itself, which is no label. -/
def labelsHash (keys : List (Option CStr)) :
    List (Option CStr) → (labelK : Nat) → Entries → Except Exit Entries
  | [], _, lhash => .ok lhash
  | labelV :: rest, labelK, lhash =>
    match keys[labelK]? with
    | none => .error .undefined
    | some name => do
      let key ← rbStrOf name
      let val ← rbStrOf labelV
      labelsHash keys rest (nextCursor keys.length labelK) (rbHashAset lhash key (.string val))

def formatMetric (seconds : Nat → Double) (cmt : Cmt) (map : CmtMap) (metric : CmtMetric) :
    Except Exit Value := do
  let opts := map.opts
  -- Measurement
  let rbHash := rbHashAset [] (rbLit "namespace") (.string (← rbStrOf opts.ns))
  let rbHash := rbHashAset rbHash (rbLit "subsystem") (.string (← rbStrOf opts.subsystem))
  -- Static labels (tags)
  let rbHash ← if 0 < cmt.staticLabels.length then do
      let shash ← staticLabelsHash cmt.staticLabels []
      pure (rbHashAset rbHash (rbLit "static_labels") (.hash shash))
    else pure rbHash
  -- Labels / Tags
  let rbHash ← if 0 < metric.labels.length then do
      let lhash ← labelsHash map.labelKeys metric.labels 0 []
      pure (rbHashAset rbHash (rbLit "labels") (.hash lhash))
    else pure rbHash
  return .hash (← appendMetricValue seconds map rbHash metric)

/-- The samples of a map in the order they are formatted: the static one first when it is set. -/
def CmtMap.samples (map : CmtMap) : List CmtMetric :=
  if map.metricStaticSet = 1 then map.metric :: map.metrics else map.metrics

def formatMetrics (seconds : Nat → Double) (cmt : Cmt) (map : CmtMap) : Except Exit Value :=
  return .array (← map.samples.mapM (formatMetric seconds cmt map))

def formatContext (seconds : Nat → Double) (cmt : Cmt) : Except Exit Value := do
  let counters ← cmt.counters.mapM (formatMetrics seconds cmt)
  let gauges ← cmt.gauges.mapM (formatMetrics seconds cmt)
  let untypeds ← cmt.untypeds.mapM (formatMetrics seconds cmt)
  return .array (counters ++ gauges ++ untypeds)

end CmetricsRuby
