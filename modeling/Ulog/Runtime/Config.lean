import Ulog.Producer.Lanes
import Ulog.Sink.FileSink
import Ulog.Testing.Destination
import Ulog.Testing.EncodedDestination

/-!
# Configuration of the Runtime

`ValidateRuntimeConfig` and the checks of a route. What they admit is at least what the producer
kernel asks for, so the kernel of an admitted Runtime has a valid configuration.

The path of a file route is left out, with the checks on it; so are the texts for the errors.
-/

namespace Ulog

/-- `RuntimeConfig`; timeouts are milliseconds. -/
structure RuntimeConfig where
  threshold : UInt8 := Level.info.toByte
  payloadCapacityBytes : ℕ := 2 ^ 20
  maximumRecordBytes : ℕ := 16384
  producerSlots : ℕ := 32
  ingressCells : ℕ := 64
  controlOperations : ℕ := 8
  workerThreads : ℕ := 1
  startupTimeout : ℤ := 5000
  destructionTimeout : ℤ := 1000
  deriving DecidableEq, Repr

inductive RuntimeCreateErrorCode where
  | invalidThreshold
  | invalidMaximumRecordBytes
  | invalidPayloadCapacity
  | invalidProducerSlots
  | invalidIngressCells
  | invalidControlCapacity
  | invalidWorkerCount
  | invalidStartupTimeout
  | invalidDestructionTimeout
  | invalidDestination
  | invalidWriteBuffers
  deriving DecidableEq, Repr

def minimumRecordBytes : ℕ := 128

def maximumControlOperations : ℕ := 64

/-- 24 hours. -/
def maximumLifecycleTimeout : ℤ := 24 * 60 * 60 * 1000

def maximumWriteBuffers : ℕ := 64

/-- `ValidateRuntimeConfig`. -/
def validateRuntimeConfig (config : RuntimeConfig) : Option RuntimeCreateErrorCode :=
  if Level.none.toByte < config.threshold then some .invalidThreshold
  else if config.maximumRecordBytes < minimumRecordBytes ∨
      maximumRecordBytes < config.maximumRecordBytes ∨
      config.maximumRecordBytes % accountingQuantumBytes ≠ 0 then some .invalidMaximumRecordBytes
  else if config.payloadCapacityBytes < config.maximumRecordBytes ∨
      config.payloadCapacityBytes % accountingQuantumBytes ≠ 0 then some .invalidPayloadCapacity
  else if config.producerSlots = 0 ∨ maximumProducerSlots < config.producerSlots then
    some .invalidProducerSlots
  else if config.ingressCells < config.producerSlots ∨
      maximumIngressCells < config.ingressCells then some .invalidIngressCells
  else if config.controlOperations = 0 ∨ maximumControlOperations < config.controlOperations then
    some .invalidControlCapacity
  else if config.workerThreads ≠ 1 then some .invalidWorkerCount
  else if config.startupTimeout ≤ 0 ∨ maximumLifecycleTimeout < config.startupTimeout then
    some .invalidStartupTimeout
  else if config.destructionTimeout ≤ 0 ∨ maximumLifecycleTimeout < config.destructionTimeout then
    some .invalidDestructionTimeout
  else none

/-- The destination that a Runtime is created with. -/
inductive RouteConfig where
  | structured (config : Destination.Config)
  | encoded (config : Encoded.Config)
  | file (writeBuffers : ℕ) (faults : FileFaultPlan)

/-- `ValidateConfig` with an in-memory destination, `ValidateFileRoute` else. -/
def RouteConfig.validate (config : RuntimeConfig) (route : RouteConfig) :
    Option RuntimeCreateErrorCode :=
  match validateRuntimeConfig config with
  | some failure => some failure
  | none =>
    match route with
    | .structured destination =>
      if destination.capacityRecords = 0 ∨
          destination.maximumRecordBytes < config.maximumRecordBytes then some .invalidDestination
      else none
    | .encoded destination =>
      if destination.capacityRecords = 0 ∨
          destination.maximumRecordBytes < config.maximumRecordBytes then some .invalidDestination
      else none
    | .file writeBuffers _ =>
      if writeBuffers = 0 ∨ maximumWriteBuffers < writeBuffers then some .invalidWriteBuffers
      else none

/-- What `Runtime::Create` accepts. Sizes are words. -/
structure RuntimeSetup where
  config : RuntimeConfig
  route : RouteConfig
  valid : route.validate config = none
  payloadCapacityBytes_lt : config.payloadCapacityBytes < wordModulus

namespace RuntimeSetup

variable (setup : RuntimeSetup)

theorem config_valid : validateRuntimeConfig setup.config = none := by
  have hvalid := setup.valid
  rw [RouteConfig.validate.eq_def] at hvalid
  split at hvalid
  · cases hvalid
  · assumption

/-- What the checks on the configuration leave. -/
structure Admitted (config : RuntimeConfig) : Prop where
  threshold : ¬Level.none.toByte < config.threshold
  maximumRecordBytes : ¬(config.maximumRecordBytes < minimumRecordBytes ∨
    Ulog.maximumRecordBytes < config.maximumRecordBytes ∨
    config.maximumRecordBytes % accountingQuantumBytes ≠ 0)
  payloadCapacityBytes : ¬(config.payloadCapacityBytes < config.maximumRecordBytes ∨
    config.payloadCapacityBytes % accountingQuantumBytes ≠ 0)
  producerSlots : ¬(config.producerSlots = 0 ∨ maximumProducerSlots < config.producerSlots)
  ingressCells : ¬(config.ingressCells < config.producerSlots ∨
    maximumIngressCells < config.ingressCells)
  controlOperations : ¬(config.controlOperations = 0 ∨
    maximumControlOperations < config.controlOperations)

theorem admitted : Admitted setup.config := by
  have hvalid := setup.config_valid
  rw [validateRuntimeConfig] at hvalid
  split_ifs at hvalid
  exact ⟨‹_›, ‹_›, ‹_›, ‹_›, ‹_›, ‹_›⟩

/-- The configuration of the producer kernel. -/
def kernel : ValidConfig where
  threshold := setup.config.threshold
  payloadCapacityBytes := setup.config.payloadCapacityBytes
  maximumRecordBytes := setup.config.maximumRecordBytes
  producerSlots := setup.config.producerSlots
  ingressCells := setup.config.ingressCells
  valid := by
    have h := setup.admitted
    have hbytes : ¬(setup.config.maximumRecordBytes < 128 ∨
        Ulog.maximumRecordBytes < setup.config.maximumRecordBytes ∨
        setup.config.maximumRecordBytes % accountingQuantumBytes ≠ 0) := h.maximumRecordBytes
    simp only [validateConfiguration]
    rw [if_neg h.threshold, if_neg hbytes, if_neg h.payloadCapacityBytes,
      if_neg h.producerSlots, if_neg h.ingressCells, if_neg (by decide)]
  payloadCapacityBytes_lt := setup.payloadCapacityBytes_lt

/-- The number of nodes of the control reserve. -/
def controlCapacity : ℕ+ :=
  ⟨setup.config.controlOperations, by
    have h := setup.admitted.controlOperations
    omega⟩

/-- A file with one buffer, for one producer. -/
def oneBuffer : RuntimeSetup where
  config :=
    { payloadCapacityBytes := 128, maximumRecordBytes := 128, producerSlots := 1, ingressCells := 1
      controlOperations := 2 }
  route := .file 1 {}
  valid := by decide
  payloadCapacityBytes_lt := by decide

end RuntimeSetup

end Ulog
