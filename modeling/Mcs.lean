import Mcs.Isolation
import Mcs.Failures
import Mcs.Overlap
import Mcs.Concurrent
import Mcs.Enumeration
import Mcs.Interrupted
import Mcs.Registry
import Mcs.Integers
import Mcs.Chunking
import Mcs.Doubles
import Mcs.Crowds
import Mcs.Outages
import Mcs.Tools
import Mcs.Trips
import Mcs.Factory
