import Restake.Main
import Restake.Proofs.Exposure
import Restake.Proofs.Observation
import Restake.Proofs.Stake
import Restake.Proofs.Snapshots
import Restake.Proofs.Trail
import Restake.Proofs.Delays
import Restake.Proofs.Authority
import Restake.Proofs.Exactness
import Restake.Proofs.Isolation
import Restake.Proofs.Index
import Restake.Proofs.Tenure
import Restake.Proofs.Maturity
import Restake.Proofs.Reduction
import Restake.Proofs.Making
import Restake.Proofs.Traffic
import Restake.Proofs.Playback
import Restake.Proofs.Fields
import Restake.Proofs.RoundTrip
import Restake.Proofs.Clearance
import Restake.Proofs.Capacity
import Restake.Proofs.Forecast
import Restake.Proofs.Batches
import Restake.Proofs.Containers
import Restake.Proofs.Burning
import Restake.Proofs.Admission
import Restake.Proofs.KeyOrder
